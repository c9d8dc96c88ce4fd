import QuantTrader.Ichimoku.Executable
import QuantTrader.Portfolio.Slots
import QuantTrader.Transition.System
import QuantTrader.Weekly.Runs

/-! # The weekly ichimoku job, boot after boot

A boot of an unmarked week plans on the account it reads, fills the orders one
transaction at a time and marks the week. It can end between any two orders, and
the next boot plans again; other programs write the other accounts meanwhile. A
boot that the guards end reads nothing.
-/

namespace QuantTrader.Ichimoku

open Ledger PaperLedger Portfolio Postgres Rebalance Transition
open Weekly (isoWeek)

/-- A boot past the guards: what it read, and the orders that it has yet to send. -/
structure Boot where
  inputs : Inputs
  rest : List (Side × Trade)

/-- What the boots did: a fill, by the inputs of its boot, or the mark of a week. -/
inductive Entry
  | filled (inputs : Inputs) (side : Side) (trade : Trade) (out : Outcome)
  | marked (week : ℤ)

namespace Entry

def week : Entry → ℤ
  | .filled i _ _ _ => isoWeek i.today
  | .marked week => week

/-- The move of the portfolio that a fill is, if it was applied. -/
def move : Entry → Option (Move String)
  | .filled _ .buy t .applied => some (.opens t.symbol t.qty)
  | .filled _ .sell t .applied => some (.closes t.symbol t.qty)
  | _ => none

end Entry

structure World where
  session : Session
  marks : List ℤ
  boot : Option Boot
  log : List Entry

inductive Event
  /-- Another program writes the accounts of others. -/
  | outside (db : Db)
  | start (i : Inputs)
  | fill
  | finish
  /-- The boot ends, or a fill that has drawn `k` ids is rolled back and ends it. -/
  | crash (k : ℕ)

section Runs

variable (c : Context) (uuid4 : ℕ → String) (acct : String) (cap : ℤ)

/-- A boot reads its inputs off the account, in a week without a mark, and plans. -/
structure Starts (w : World) (i : Inputs) (cash : ℚ) (p : TradePlan) : Prop where
  idle : w.boot = none
  unmarked : isoWeek i.today ∉ w.marks
  symbols : (i.signals.map Prod.fst).Nodup
  maxPositions : i.maxPositions = cap
  held : Positions w.session.db acct i.held
  balance : PaperLedger.cash w.session.db acct = .fin cash
  plan : i.planTrades c cash = .ok p

namespace World

variable (w : World)

/-- `mark_week_done`. -/
def markWeekDone (week : ℤ) : List ℤ :=
  if week ∈ w.marks then w.marks else w.marks ++ [week]

/-- The world after a boot has planned, if it could. -/
def start (i : Inputs) : Option World :=
  match PaperLedger.cash w.session.db acct with
  | .fin cash =>
    match i.planTrades c cash with
    | .ok p => some { w with boot := some ⟨i, p.orders⟩ }
    | .error _ => none
  | _ => none

/-- The world after the next order, if its transaction commits. -/
def fill : Option World :=
  match w.boot with
  | some ⟨i, (side, t) :: rest⟩ =>
    match simulateFill c uuid4 w.session acct t.symbol side t.qty t.px with
    | .ok (session, out) =>
      some ⟨session, w.marks, some ⟨i, rest⟩, w.log ++ [.filled i side t out]⟩
    | .error _ => none
  | _ => none

/-- The world after the week of the boot is marked. -/
def finish : World :=
  match w.boot with
  | some b =>
    let week := isoWeek b.inputs.today
    ⟨w.session, w.markWeekDone week, none, w.log ++ [.marked week]⟩
  | none => w

def Enabled : Event → Prop
  | .outside db => db.accounts acct = w.session.db.accounts acct ∧
      db.positions acct = w.session.db.positions acct ∧
        Session.Fresh uuid4 ⟨db, w.session.drawn⟩
  | .start i => ∃ cash p, Starts c acct cap w i cash p
  | .fill => (w.fill c uuid4 acct).isSome
  | .finish => ∃ i, w.boot = some ⟨i, []⟩
  | .crash _ => w.boot.isSome

def next : Event → World
  | .outside db => { w with session := ⟨db, w.session.drawn⟩ }
  | .start i => (w.start c acct i).getD w
  | .fill => (w.fill c uuid4 acct).getD w
  | .finish => w.finish
  | .crash k => { w with session := ⟨w.session.db, w.session.drawn + k⟩, boot := none }

end World

/-- The job over its boots. -/
def weeklyJob : System World Event where
  Enabled w := w.Enabled c uuid4 acct cap
  next w := w.next c uuid4 acct

end Runs

def moves (log : List Entry) : List (Move String) := log.filterMap Entry.move

/-- The holdings of an account are the slots, in whole shares. -/
structure HeldAs (db : Db) (acct : String) (slots : List (String × ℤ)) : Prop where
  nodup : (slots.map Prod.fst).Nodup
  whole : ∀ sym, ∃ n : ℤ, 0 ≤ n ∧ Ledger.held db acct sym = .fin n ∧
    ∀ q, (sym, q) ∈ slots ↔ q = n ∧ 0 < n

/-- What the orders of a boot that are left rest on, with the slots as they are. -/
structure Pending (cap : ℤ) (acct : String) (slots : List (String × ℤ)) (db : Db) (i : Inputs)
    (sells buys : List Trade) : Prop where
  nodup : (sells.map Trade.symbol).Nodup
  held : ∀ t ∈ sells, (t.symbol, t.qty) ∈ slots
  distinct : (buys.map Trade.symbol).Nodup
  free : ∀ t ∈ buys, t.symbol ∉ slots.map Prod.fst
  sized : ∀ t ∈ buys, 1 ≤ t.qty
  room : buys ≠ [] → (slots.length + buys.length : ℤ) ≤ cap + sells.length
  balance : ∃ x, PaperLedger.cash db acct = .fin x
  whole : i.WholePrices → ∀ t ∈ sells, t.Whole
  funded : i.WholePrices → ∀ x, Holds db acct x → x + (sells.map Trade.earned).sum < 10 ^ 16 →
    (∀ t ∈ buys, t.Whole) ∧ Affords (x + (sells.map Trade.earned).sum) buys

section Fills

variable {c : Context} {ε x price : ℚ} {uuid4 : ℕ → String} {acct sym : String} {s s' : Session}
  {side : Side} {out : Outcome} {n q : ℤ} {k : ℕ} {db mid : Db} {slots slots' : List (String × ℤ)}
  {oid eid : String} {fee : ℚ}

theorem merge_quantity {p new row : Ledger.Position} (h : p.merge new = .ok row) :
    store 28 12 (Postgres.add p.quantity.val.val new.quantity.val.val) = .ok row.quantity.val := by
  unfold Ledger.Position.merge at h
  split at h
  · cases h
  · simp only [bind_ok_iff] at h
    obtain ⟨avg, -, stored, hstored, quantity, hcheck, h⟩ := h
    rw [← Except.ok.inj h, hstored, check_ok hcheck]

theorem onGrid_int (n : ℤ) : OnGrid (unit 12) (n : ℚ) :=
  ⟨n * 10 ^ 12, by norm_num [unit, mul_assoc]⟩

theorem store_int {v : Numeric 28 12} (h : store 28 12 (.fin n) = .ok v) : v.val = .fin n :=
  ((store_of_onGrid (onGrid_int n)).mp h).2

theorem bookBuy_held {cost : Decimal} {bal : NonNegNumeric 20 4}
    (hbal : db.accounts acct = some bal) (hq : Ledger.held db acct sym = .fin q)
    (h : bookBuy c db (message uuid4 k acct sym .buy n price fee) cost = .ok mid) :
    Ledger.held mid acct sym = .fin (q + n : ℤ) := by
  obtain ⟨bal', row, u, new, pos, hw⟩ := (bookBuy_ok_iff (by exact hbal)).mp h
  have hnew : new.quantity.val.val = .fin n := store_int hw.quantity
  have hpos : pos.quantity.val.val = .fin (q + n : ℤ) := by
    unfold Ledger.held at hq
    cases hp : db.positions acct sym with
    | none =>
      rw [hp] at hq
      obtain rfl : q = 0 := by exact_mod_cast (Decimal.fin.inj hq).symm
      rw [hw.opened hp, zero_add]
      exact hnew
    | some p =>
      simp only [hp] at hq
      have hstored := merge_quantity (hw.merged p hp)
      rw [hq, hnew, add_fin, ← Int.cast_add] at hstored
      exact store_int hstored
  rw [hw.result, Ledger.held]
  simpa [Db.setPosition, message] using hpos

theorem bookSell_held (hq : Ledger.held db acct sym = .fin q)
    (hpos : (db.positions acct sym).isSome)
    (h : bookSell c db (message uuid4 k acct sym .sell n price fee) = .ok mid) :
    Ledger.held mid acct sym = .fin (q - n : ℤ) := by
  obtain ⟨p, hp⟩ := Option.isSome_iff_exists.mp hpos
  obtain ⟨bal, bal', row, proceeds, quantity, hw⟩ := (bookSell_ok_iff (by exact hp)).mp h
  have hstored := hw.reduced
  simp only [Ledger.held, hp] at hq
  rw [hq, message, sub_fin, ← Int.cast_sub] at hstored
  rw [hw.result, Ledger.held]
  simpa [Db.setPosition, message] using store_int hstored

/-- A sale is only refused where there is no row, or not enough in it. -/
theorem lt_of_lacking (hq : Ledger.held db acct sym = .fin q)
    (hl : ∀ row y, db.positions acct sym = some row → row.quantity.val.val = .fin y → y < n) :
    db.positions acct sym = none ∨ q < n := by
  cases hp : db.positions acct sym with
  | none => exact .inl rfl
  | some p =>
    simp only [Ledger.held, hp] at hq
    exact .inr (by exact_mod_cast hl p q hp hq)

/-- What a fill leaves of the shares. -/
def sharesAfter (q n : ℤ) : Side → ℤ
  | .buy => q + n
  | .sell => q - n

/-- What a fill that returns has done to the account. -/
inductive Effect (acct sym : String) (side : Side) (q n : ℤ) (x : ℚ) (db db' : Db) : Outcome → Prop
  | applied {y : ℚ} : Holds db' acct y → Ledger.held db' acct sym = .fin (sharesAfter q n side) →
      Effect acct sym side q n x db db' .applied
  | rejected : (side = .sell → db.positions acct sym = none ∨ q < n) → Holds db' acct x →
      db'.positions = db.positions →
      Effect acct sym side q n x db db' .rejected

/-- One fill: its ids stay fresh, nothing else moves, and the shares are booked or left alone. -/
theorem simulateFill_effect (hinj : Function.Injective uuid4) (hs : s.Fresh uuid4)
    (hx : Holds s.db acct x) (hq : Ledger.held s.db acct sym = .fin q)
    (h : simulateFill c uuid4 s acct sym side n price = .ok (s', out)) :
    s'.Fresh uuid4 ∧ SameBut acct sym s.db s'.db ∧ Effect acct sym side q n x s.db s'.db out := by
  simp only [simulateFill, bind_ok_iff, Raise.pg_ok_iff, Raise.py_ok_iff] at h
  obtain ⟨db, hdb, fee, -, ⟨db', out'⟩, ha, h⟩ := h
  cases h
  obtain ⟨row, -, -, -, rfl⟩ := Orders.insertOrder_ok_iff.mp hdb
  obtain ⟨hfresh, hsame, hset⟩ := applyExecution_settled hinj (by exact hs) (by exact hx) ha
  refine ⟨hfresh, ⟨hsame.accounts, hsame.positions⟩, ?_⟩
  rcases applyExecution_cases ha with ⟨rfl, -, -⟩ | ⟨rfl, -, -, rfl⟩ | ⟨rfl, -, hcov, mid, hm, rfl⟩
  · cases hset
  · refine .rejected ?_ hx rfl
    rintro rfl
    cases hset with
    | short hs => cases hs
    | lacking _ hl => exact lt_of_lacking hq hl
  · obtain ⟨bal, hbal, -⟩ := id hx
    cases side with
    | buy =>
      obtain ⟨cost, -, hbook⟩ := hm
      have hheld := bookBuy_held (by exact hbal) (by exact hq) hbook
      cases hset with
      | bought _ _ _ _ hy => exact .applied hy hheld
      | sold hs => cases hs
    | sell =>
      obtain ⟨p, hp, -⟩ := hcov
      have hheld := bookSell_held (by exact hq) (Option.isSome_iff_exists.mpr ⟨p, hp⟩) hm
      cases hset with
      | bought hs => cases hs
      | sold _ _ _ hy => exact .applied hy hheld

end Fills

/-! ## The slots of an account -/

section Slots

variable {c : Context} {i : Inputs} {db db' : Db} {acct sym : String} {slots : List (String × ℤ)}
  {n x r perName : ℚ} {cands : List (String × LatestSignal)} {ts : List Trade}

namespace HeldAs

theorem of_mem {n : ℤ} (h : HeldAs db acct slots) (hmem : (sym, n) ∈ slots) :
    Ledger.held db acct sym = .fin n ∧ 0 < n := by
  obtain ⟨m, -, hheld, hiff⟩ := h.whole sym
  obtain ⟨rfl, hpos⟩ := (hiff n).mp hmem
  exact ⟨hheld, hpos⟩

theorem of_not_mem (h : HeldAs db acct slots) (hmem : sym ∉ slots.map Prod.fst) :
    Ledger.held db acct sym = .fin (0 : ℤ) := by
  obtain ⟨m, h0, hheld, hiff⟩ := h.whole sym
  have hm : ¬ 0 < m := fun hpos => hmem (List.mem_map_of_mem ((hiff m).mpr ⟨rfl, hpos⟩))
  obtain rfl : m = 0 := by omega
  exact hheld

theorem congr (h : HeldAs db acct slots) (hp : db'.positions acct = db.positions acct) :
    HeldAs db' acct slots where
  nodup := h.nodup
  whole sym := by
    have hheld : Ledger.held db' acct sym = Ledger.held db acct sym := by
      rw [Ledger.held, Ledger.held, hp]
    rw [hheld]
    exact h.whole sym

theorem positions (h : HeldAs db acct slots) : Positions db acct slots where
  nodup := h.nodup
  mem_iff sym q := by
    obtain ⟨n, h0, hheld, hiff⟩ := h.whole sym
    rw [hiff]
    unfold Ledger.held at hheld
    cases hp : db.positions acct sym with
    | none =>
      simp only [hp, Decimal.fin.injEq] at hheld
      obtain rfl : n = 0 := by exact_mod_cast hheld.symm
      simp
    | some row =>
      simp only [hp] at hheld
      constructor
      · rintro ⟨rfl, hpos⟩
        exact ⟨row, q, rfl, hheld, by exact_mod_cast hpos, by simp [Context.truncate, h0]⟩
      · rintro ⟨row', x, hrow, hx, hpos, rfl⟩
        obtain rfl := Option.some.inj hrow
        obtain rfl := Decimal.fin.inj (hheld.symm.trans hx)
        exact ⟨by simp [Context.truncate, h0], by exact_mod_cast hpos⟩

theorem perm (h : HeldAs db acct slots) {held : List (String × ℤ)} (hp : Positions db acct held) :
    held.Perm slots := by
  refine (List.perm_ext_iff_of_nodup hp.nodup.of_map h.nodup.of_map).mpr ?_
  rintro ⟨sym, q⟩
  rw [hp.mem_iff, h.positions.mem_iff]

theorem covered {t : Trade} (h : HeldAs db acct slots) (hmem : (t.symbol, t.qty) ∈ slots) :
    Covered db acct [t] := by
  intro t' ht'
  obtain rfl := List.mem_singleton.mp ht'
  obtain ⟨row, x, hrow, hx, -, -⟩ := (h.positions.mem_iff _ _).mp hmem
  obtain ⟨hheld, -⟩ := h.of_mem hmem
  simp only [Ledger.held, hrow, hx, Decimal.fin.injEq] at hheld
  exact ⟨row, x, hrow, hx, hheld.ge⟩

theorem opens {n : ℤ} (h : HeldAs db acct slots) (hsym : sym ∉ slots.map Prod.fst) (hn : 0 < n)
    (hheld : Ledger.held db' acct sym = .fin n)
    (hsame : ∀ t, t ≠ sym → Ledger.held db' acct t = Ledger.held db acct t) :
    HeldAs db' acct (slots ++ [(sym, n)]) where
  nodup := by
    rw [List.map_append, List.nodup_append_comm]
    exact List.nodup_cons.mpr ⟨hsym, h.nodup⟩
  whole t := by
    rcases eq_or_ne t sym with rfl | hne
    · refine ⟨n, hn.le, hheld, fun q => ?_⟩
      have hq : (t, q) ∉ slots := fun hmem => hsym (List.mem_map_of_mem hmem)
      simp [hq, hn]
    · obtain ⟨m, h0, hm, hiff⟩ := h.whole t
      refine ⟨m, h0, (hsame t hne).trans hm, fun q => ?_⟩
      simp [hiff, hne]

theorem closes (h : HeldAs db acct slots) (hheld : Ledger.held db' acct sym = .fin (0 : ℤ))
    (hsame : ∀ t, t ≠ sym → Ledger.held db' acct t = Ledger.held db acct t) :
    HeldAs db' acct (slots.filter fun e => e.1 ≠ sym) where
  nodup := h.nodup.sublist (List.filter_sublist.map _)
  whole t := by
    rcases eq_or_ne t sym with rfl | hne
    · exact ⟨0, le_rfl, hheld, fun q => by simp⟩
    · obtain ⟨m, h0, hm, hiff⟩ := h.whole t
      refine ⟨m, h0, (hsame t hne).trans hm, fun q => ?_⟩
      simp [hiff, hne]

end HeldAs

/-! ## The plan of a boot -/

theorem Bought.sublist (h : Bought c i perName r cands ts) :
    (ts.map Trade.symbol).Sublist (cands.map Prod.fst) := by
  induction h with
  | stop => exact List.nil_sublist _
  | skip _ ih => exact ih.cons _
  | buy _ _ _ _ _ _ _ _ ih => exact ih.cons_cons _

theorem Bought.one_le (h : Bought c i perName r cands ts) : ∀ t ∈ ts, 1 ≤ t.qty := by
  induction h with
  | stop => simp
  | skip _ ih => exact ih
  | buy _ _ _ hq _ _ _ _ ih => exact List.forall_mem_cons.mpr ⟨hq, ih⟩

theorem cands_nodup (h : (i.signals.map Prod.fst).Nodup) : (i.cands.map Prod.fst).Nodup := by
  rw [Inputs.cands, ((List.perm_insertionSort _ _).map _).nodup_iff]
  exact h.sublist (List.filter_sublist.map _)

theorem kept_or_sold {e : String × ℤ} (he : e ∈ i.held) :
    e ∈ i.keep ∨ ∃ t ∈ i.sells, t.symbol = e.1 := by
  cases hp : i.salePx e.1 with
  | none => exact .inl (List.mem_filter.mpr ⟨he, by simp [hp]⟩)
  | some p => exact .inr ⟨⟨e.1, e.2, p⟩, mem_sells.mpr ⟨he, hp⟩, rfl⟩

theorem length_keep_sells (i : Inputs) : i.keep.length + i.sells.length = i.held.length := by
  rw [Inputs.keep, Inputs.sells]
  induction i.held with
  | nil => rfl
  | cons e l ih =>
    cases hp : i.salePx e.1 with
    | none =>
      rw [List.filter_cons_of_pos (by simp [hp]), List.filterMap_cons_none (by simp [hp]),
        List.length_cons, List.length_cons]
      omega
    | some p =>
      rw [List.filter_cons_of_neg (by simp [hp]), List.filterMap_cons_some (by simp [hp]; rfl),
        List.length_cons, List.length_cons]
      omega

end Slots

/-! ## The orders of a boot -/

section Boots

variable {c : Context} {ε x cash : ℚ} {uuid4 : ℕ → String} {acct : String} {cap : ℤ} {w : World}
  {s s' : Session} {i : Inputs} {p : TradePlan} {t : Trade} {sells buys : List Trade}
  {out : Outcome} {db db' : Db} {slots : List (String × ℤ)}

theorem holds_of_cash (hcash : PaperLedger.cash db acct = .fin x)
    (hacct : (db.accounts acct).isSome) : Holds db acct x := by
  obtain ⟨bal, hbal⟩ := Option.isSome_iff_exists.mp hacct
  simp only [PaperLedger.cash, hbal] at hcash
  exact ⟨bal, hbal, hcash⟩

theorem cash_of_holds (h : Holds db acct x) : PaperLedger.cash db acct = .fin x := by
  obtain ⟨bal, hbal, hx⟩ := h
  rw [PaperLedger.cash, hbal]
  exact hx

theorem Starts.pending (hc : c.Accurate ε) (hs : HeldAs w.session.db acct slots)
    (h : Starts c acct cap w i cash p) :
    Pending cap acct slots w.session.db i p.sells p.buys := by
  obtain ⟨avail, perName, havail, hsells, -, hlen, hbuys⟩ := planTrades_ok h.plan
  have hperm : i.held.Perm slots := hs.perm h.held
  have hheld : ∀ t ∈ i.sells, (t.symbol, t.qty) ∈ slots := fun t ht =>
    hperm.mem_iff.mp (mem_sells.mp ht).1
  rw [hsells]
  constructor
  · exact sells_nodup h.held.nodup
  · exact hheld
  · exact (cands_nodup h.symbols).sublist hbuys.sublist
  · intro t ht hmem
    obtain ⟨sig, hsig⟩ := hbuys.mem_cands ht
    obtain ⟨-, -, hkeep, hsold⟩ := mem_cands.mp hsig
    obtain ⟨e, he, heq⟩ := List.mem_map.mp hmem
    rcases kept_or_sold (hperm.mem_iff.mpr he) with hk | ⟨t', ht', heq'⟩
    · exact hkeep (List.mem_map.mpr ⟨e, hk, heq⟩)
    · exact hsold (List.mem_map.mpr ⟨t', ht', heq'.trans heq⟩)
  · exact hbuys.one_le
  · intro hne
    have hpos := List.length_pos_iff.mpr hne
    have hsum := length_keep_sells i
    rw [hperm.length_eq] at hsum
    rw [h.maxPositions] at hlen
    omega
  · exact ⟨cash, h.balance⟩
  · intro hi t ht
    exact sells_whole hi (fun e he => (positions_mem h.held he).1) ht
  · intro hi x hx hlt
    have hwhole : ∀ t ∈ i.sells, t.Whole := fun t ht =>
      sells_whole hi (fun e he => (positions_mem h.held he).1) ht
    obtain rfl : x = cash := Decimal.fin.inj ((cash_of_holds hx).symm.trans h.balance)
    have havail' := avail_eq hc hwhole hx.nonneg (onGrid_of_holds hx) hlt
    obtain rfl := Except.ok.inj (havail.symm.trans havail')
    have hsum := earned_sum_nonneg hwhole
    obtain ⟨-, hgrid⟩ := total_proceeds hc hwhole hx.nonneg (onGrid_of_holds hx) hlt
    exact hbuys.affords hc hi (fun e he => (mem_cands.mp he).1) hgrid
      (add_nonneg hx.nonneg hsum) hlt

namespace Pending

/-- Writes to other accounts change nothing for the orders that are left. -/
theorem congr (h : Pending cap acct slots db i sells buys)
    (ha : db'.accounts acct = db.accounts acct) : Pending cap acct slots db' i sells buys := by
  have hcash : PaperLedger.cash db' acct = PaperLedger.cash db acct := by
    rw [PaperLedger.cash, PaperLedger.cash, ha]
  refine ⟨h.nodup, h.held, h.distinct, h.free, h.sized, h.room, ?_, h.whole, ?_⟩
  · rw [hcash]
    exact h.balance
  · rintro hi x ⟨bal, hbal, hx⟩
    exact h.funded hi x ⟨bal, ha ▸ hbal, hx⟩

theorem sell (hinj : Function.Injective uuid4) (hc : c.Accurate ε) (hs : s.Fresh uuid4)
    (hslots : HeldAs s.db acct slots) (h : Pending cap acct slots s.db i (t :: sells) buys)
    (hfill : simulateFill c uuid4 s acct t.symbol .sell t.qty t.px = .ok (s', out)) :
    out = .applied ∧ s'.Fresh uuid4 ∧
      HeldAs s'.db acct (slots.filter fun e => e.1 ≠ t.symbol) ∧
        Pending cap acct (slots.filter fun e => e.1 ≠ t.symbol) s'.db i sells buys := by
  obtain ⟨x, hcash⟩ := h.balance
  have hx := holds_of_cash hcash (isSome_of_simulateFill hfill)
  have hmem := h.held t List.mem_cons_self
  obtain ⟨hheld, hpos⟩ := hslots.of_mem hmem
  obtain ⟨hfresh, hsame, heff⟩ := simulateFill_effect hinj hs hx hheld hfill
  have happlied : out = .applied ∧ (∃ y, Holds s'.db acct y) ∧
      Ledger.held s'.db acct t.symbol = .fin (0 : ℤ) := by
    cases heff with
    | applied hy hq => exact ⟨rfl, ⟨_, hy⟩, by rw [hq, sharesAfter, sub_self]⟩
    | rejected hl =>
      rcases hl rfl with hnone | hlt
      · simp only [Ledger.held, hnone, Decimal.fin.injEq] at hheld
        have : t.qty = 0 := by exact_mod_cast hheld.symm
        omega
      · exact absurd hlt (lt_irrefl _)
  obtain ⟨hout, ⟨y, hy⟩, hzero⟩ := happlied
  have hkeep : ∀ sym, sym ≠ t.symbol → Ledger.held s'.db acct sym = Ledger.held s.db acct sym := by
    intro sym hne
    rw [Ledger.held, Ledger.held, hsame.positions acct sym (.inr hne)]
  obtain ⟨hsym, hnodup⟩ := List.nodup_cons.mp h.nodup
  refine ⟨hout, hfresh, hslots.closes hzero hkeep, hnodup, ?_, h.distinct, ?_, h.sized, ?_,
    ⟨y, cash_of_holds hy⟩, ?_, ?_⟩
  · intro t' ht'
    have hne : t'.symbol ≠ t.symbol := fun heq => hsym (heq ▸ List.mem_map_of_mem ht')
    exact List.mem_filter.mpr ⟨h.held t' (List.mem_cons_of_mem _ ht'), decide_eq_true hne⟩
  · intro t' ht' hmem'
    exact h.free t' ht' (List.map_subset _ (List.filter_subset_self _) hmem')
  · intro hne
    have hroom := h.room hne
    have hclose := length_close hslots.nodup hmem
    rw [List.length_cons] at hroom
    omega
  · intro hi t' ht'
    exact h.whole hi t' (List.mem_cons_of_mem _ ht')
  · intro hi x' hx' hlt
    obtain ⟨-, -, -, hearned⟩ := sell_step hinj hc hs hx (h.whole hi t List.mem_cons_self)
      (hslots.covered hmem) hfill
    obtain rfl := hx'.unique hearned
    have hfunded := h.funded hi x hx
    rw [List.map_cons, List.sum_cons, ← add_assoc] at hfunded
    exact hfunded hlt

theorem buy (hinj : Function.Injective uuid4) (hc : c.Accurate ε) (hs : s.Fresh uuid4)
    (hslots : HeldAs s.db acct slots) (h : Pending cap acct slots s.db i [] (t :: buys))
    (hfill : simulateFill c uuid4 s acct t.symbol .buy t.qty t.px = .ok (s', out)) :
    s'.Fresh uuid4 ∧ (i.WholePrices → out = .applied) ∧
      (out = .applied ∧ HeldAs s'.db acct (slots ++ [(t.symbol, t.qty)]) ∧
          Pending cap acct (slots ++ [(t.symbol, t.qty)]) s'.db i [] buys ∨
        out = .rejected ∧ HeldAs s'.db acct slots ∧ Pending cap acct slots s'.db i [] buys) := by
  obtain ⟨x, hcash⟩ := h.balance
  have hx := holds_of_cash hcash (isSome_of_simulateFill hfill)
  have hsym := h.free t List.mem_cons_self
  have hsized := h.sized t List.mem_cons_self
  obtain ⟨hfresh, hsame, heff⟩ := simulateFill_effect hinj hs hx (hslots.of_not_mem hsym) hfill
  have hwhole : i.WholePrices → out = .applied ∧ Holds s'.db acct (x - t.cost) ∧
      (∀ t ∈ buys, t.Whole) ∧ Affords (x - t.cost) buys := by
    intro hi
    have hfunded := h.funded hi x hx
    rw [List.map_nil, List.sum_nil, add_zero] at hfunded
    obtain ⟨hts, hle, hafford⟩ := hfunded hx.lt
    obtain ⟨ht, hts⟩ := List.forall_mem_cons.mp hts
    obtain ⟨hout, -, hcost⟩ := buy_step hinj hc hs hx ht hle hfill
    exact ⟨hout, hcost, hts, hafford⟩
  have hfunded : i.WholePrices → ∀ x', Holds s'.db acct x' →
      x' + (([] : List Trade).map Trade.earned).sum < 10 ^ 16 →
        (∀ t ∈ buys, t.Whole) ∧ Affords (x' + (([] : List Trade).map Trade.earned).sum) buys := by
    intro hi x' hx' _
    obtain ⟨-, hcost, hts, hafford⟩ := hwhole hi
    obtain rfl := hx'.unique hcost
    rw [List.map_nil, List.sum_nil, add_zero]
    exact ⟨hts, hafford⟩
  obtain ⟨hdist, hdistinct⟩ := List.nodup_cons.mp h.distinct
  have hroom := h.room (List.cons_ne_nil _ _)
  rw [List.length_cons, List.length_nil] at hroom
  refine ⟨hfresh, fun hi => (hwhole hi).1, ?_⟩
  cases heff with
  | @applied y hy hq =>
    rw [sharesAfter, zero_add] at hq
    have hkeep : ∀ sym, sym ≠ t.symbol →
        Ledger.held s'.db acct sym = Ledger.held s.db acct sym := by
      intro sym hne
      rw [Ledger.held, Ledger.held, hsame.positions acct sym (.inr hne)]
    refine .inl ⟨rfl, hslots.opens hsym (by omega) hq hkeep, .nil, by simp, hdistinct, ?_,
      fun t' ht' => h.sized t' (List.mem_cons_of_mem _ ht'), ?_, ⟨y, cash_of_holds hy⟩, by simp,
      hfunded⟩
    · intro t' ht' hmem
      rw [List.map_append, List.mem_append, List.map_singleton, List.mem_singleton] at hmem
      rcases hmem with hmem | heq
      · exact h.free t' (List.mem_cons_of_mem _ ht') hmem
      · exact hdist (List.mem_map.mpr ⟨t', ht', heq⟩)
    · intro _
      rw [List.length_append, List.length_singleton, List.length_nil]
      omega
  | rejected _ hy hpos =>
    refine .inr ⟨rfl, hslots.congr (congrFun hpos acct), .nil, by simp, hdistinct,
      fun t' ht' => h.free t' (List.mem_cons_of_mem _ ht'),
      fun t' ht' => h.sized t' (List.mem_cons_of_mem _ ht'), ?_, ⟨x, cash_of_holds hy⟩, by simp,
      hfunded⟩
    intro _
    rw [List.length_nil]
    omega

end Pending

end Boots

/-! ## Boot after boot -/

/-- What a boot has sent, in its order. -/
def SentBy (i : Inputs) : List (Side × Trade) → List Entry → Prop :=
  List.Forall₂ fun o e => ∃ out, e = .filled i o.1 o.2 out

/-- The entries end with every order of a plan made in a week. -/
def Complete (c : Context) (week : ℤ) (log : List Entry) : Prop :=
  ∃ (i : Inputs) (cash : ℚ) (p : TradePlan) (old sent : List Entry),
    isoWeek i.today = week ∧ i.planTrades c cash = .ok p ∧
    SentBy i p.orders sent ∧ log = old ++ sent

/-- The entries of the boots: a refused order is a buy at prices that are not whole, a week is
marked once its plan is sent, and has no entry after its mark. -/
structure Logged (c : Context) (marks₀ : List ℤ) (log : List Entry) : Prop where
  applied : ∀ i side t out, .filled i side t out ∈ log → side = .sell ∨ i.WholePrices →
    out = .applied
  unmarked : ∀ e ∈ log, e.week ∉ marks₀
  closed : log.Pairwise fun e e' => ∀ week, e = .marked week → e'.week ≠ week
  complete : ∀ l l' week, log = l ++ .marked week :: l' → Complete c week l

/-- The orders of a boot: what it has sent ends the log, and what is left can be filled. -/
structure Running (c : Context) (acct : String) (cap : ℤ) (slots : List (String × ℤ)) (w : World)
    (b : Boot) : Prop where
  unmarked : isoWeek b.inputs.today ∉ w.marks
  sent : ∃ cash p old done sent, b.inputs.planTrades c cash = .ok p ∧ p.orders = done ++ b.rest ∧
    SentBy b.inputs done sent ∧ w.log = old ++ sent
  pending : ∃ sells buys, b.rest = sells.map (Side.sell, ·) ++ buys.map (Side.buy, ·) ∧
    Pending cap acct slots w.session.db b.inputs sells buys

/-- What the boots keep. -/
structure Inv (c : Context) (uuid4 : ℕ → String) (acct : String) (cap : ℤ)
    (slots₀ : List (String × ℤ)) (marks₀ : List ℤ) (w : World) : Prop where
  fresh : w.session.Fresh uuid4
  logged : Logged c marks₀ w.log
  marks : ∀ week, week ∈ w.marks ↔ week ∈ marks₀ ∨ .marked week ∈ w.log
  slots : ∃ slots, play cap slots₀ (moves w.log) = some slots ∧ HeldAs w.session.db acct slots ∧
    ∀ b, w.boot = some b → Running c acct cap slots w b

section Reached

variable {c : Context} {ε : ℚ} {uuid4 : ℕ → String} {acct : String} {cap : ℤ} {w : World}
  {slots₀ slots slots' : List (String × ℤ)} {marks₀ : List ℤ} {i : Inputs} {side : Side}
  {t : Trade} {out : Outcome} {log : List Entry} {week : ℤ} {s' : Session}
  {rest : List (Side × Trade)}

@[simp] theorem moves_snoc {e : Entry} : moves (log ++ [e]) = moves log ++ e.move.toList := by
  rw [moves, moves, List.filterMap_append]
  cases he : e.move <;> simp [he]

theorem append_cons_of_snoc {e a : Entry} {l l' : List Entry} (h : log ++ [e] = l ++ a :: l') :
    (log = l ∧ e = a) ∨ ∃ l'', log = l ++ a :: l'' := by
  rcases List.eq_nil_or_concat l' with rfl | ⟨l'', e', rfl⟩
  · obtain ⟨hl, he⟩ := List.append_inj' h rfl
    exact .inl ⟨hl, List.singleton_inj.mp he⟩
  · rw [List.concat_eq_append, ← List.cons_append, ← List.append_assoc] at h
    exact .inr ⟨l'', (List.append_inj' h rfl).1⟩

theorem Logged.snoc {e : Entry} (h : Logged c marks₀ log) (hmarks : e.week ∉ marks₀)
    (hlog : .marked e.week ∉ log)
    (happlied : ∀ i side t out, e = .filled i side t out → side = .sell ∨ i.WholePrices →
      out = .applied)
    (hcomplete : ∀ week, e = .marked week → Complete c week log) :
    Logged c marks₀ (log ++ [e]) where
  applied i side t out hmem hor := by
    rcases List.mem_append.mp hmem with hmem | hmem
    · exact h.applied i side t out hmem hor
    · exact happlied i side t out (List.mem_singleton.mp hmem).symm hor
  unmarked e' he' := by
    rcases List.mem_append.mp he' with he' | he'
    · exact h.unmarked e' he'
    · rwa [List.mem_singleton.mp he']
  closed := by
    refine List.pairwise_append.mpr ⟨h.closed, List.pairwise_singleton _ _, ?_⟩
    rintro e₁ he₁ e' he' week rfl rfl
    rw [List.mem_singleton.mp he'] at he₁
    exact hlog he₁
  complete l l' week heq := by
    rcases append_cons_of_snoc heq with ⟨rfl, he⟩ | ⟨l'', hl⟩
    · exact hcomplete week he
    · exact h.complete l l'' week hl

/-- The slots after a fill, and the orders that are left then. -/
theorem Running.fill (hinj : Function.Injective uuid4) (hc : c.Accurate ε)
    (hs : w.session.Fresh uuid4) (hslots : HeldAs w.session.db acct slots)
    (h : Running c acct cap slots w ⟨i, (side, t) :: rest⟩)
    (hfill : simulateFill c uuid4 w.session acct t.symbol side t.qty t.px = .ok (s', out)) :
    s'.Fresh uuid4 ∧ (side = .sell ∨ i.WholePrices → out = .applied) ∧
      ∃ slots', play cap slots (Entry.filled i side t out).move.toList = some slots' ∧
        HeldAs s'.db acct slots' ∧ Running c acct cap slots'
          ⟨s', w.marks, some ⟨i, rest⟩, w.log ++ [.filled i side t out]⟩ ⟨i, rest⟩ := by
  obtain ⟨hunmarked, ⟨cash, p, old, done, sent, hplan, horders, hsent, hlog⟩, sells, buys, hrest,
    hpending⟩ := h
  have hsent' : ∃ cash p old done sent, i.planTrades c cash = .ok p ∧ p.orders = done ++ rest ∧
      SentBy i done sent ∧ w.log ++ [.filled i side t out] = old ++ sent := by
    refine ⟨cash, p, old, done ++ [(side, t)], sent ++ [.filled i side t out], hplan, ?_,
      List.rel_append hsent (.cons ⟨out, rfl⟩ .nil), ?_⟩
    · rw [horders, List.append_assoc, List.singleton_append]
    · rw [hlog, List.append_assoc]
  cases sells with
  | cons t' sells =>
    simp only [List.map_cons, List.cons_append, List.cons.injEq, Prod.mk.injEq] at hrest
    obtain ⟨⟨rfl, rfl⟩, rfl⟩ := hrest
    obtain ⟨rfl, hfresh, hheld, hleft⟩ := hpending.sell hinj hc hs hslots hfill
    refine ⟨hfresh, fun _ => rfl, _, ?_, hheld, hunmarked, hsent', sells, buys, rfl, hleft⟩
    exact play_singleton.trans (Move.play_closes (hpending.held t List.mem_cons_self))
  | nil =>
    cases buys with
    | nil => cases hrest
    | cons t' buys =>
      simp only [List.map_nil, List.map_cons, List.nil_append, List.cons.injEq,
        Prod.mk.injEq] at hrest
      obtain ⟨⟨rfl, rfl⟩, rfl⟩ := hrest
      obtain ⟨hfresh, hwhole, hor⟩ := hpending.buy hinj hc hs hslots hfill
      have hroom := hpending.room (List.cons_ne_nil _ _)
      rw [List.length_cons, List.length_nil] at hroom
      refine ⟨hfresh, fun hor => hwhole (hor.resolve_left nofun), ?_⟩
      rcases hor with ⟨rfl, hheld, hleft⟩ | ⟨rfl, hheld, hleft⟩
      · refine ⟨_, ?_, hheld, hunmarked, hsent', [], buys, rfl, hleft⟩
        have hpos := hpending.sized t List.mem_cons_self
        exact play_singleton.trans
          (Move.play_opens (hpending.free t List.mem_cons_self) (by omega) (by omega))
      · exact ⟨slots, rfl, hheld, hunmarked, hsent', [], buys, rfl, hleft⟩

theorem World.fill_eq_some_iff {w' : World} : w.fill c uuid4 acct = some w' ↔
    ∃ i side t rest session out, w.boot = some ⟨i, (side, t) :: rest⟩ ∧
      simulateFill c uuid4 w.session acct t.symbol side t.qty t.px = .ok (session, out) ∧
        w' = ⟨session, w.marks, some ⟨i, rest⟩, w.log ++ [.filled i side t out]⟩ := by
  constructor
  · intro h
    unfold World.fill at h
    split at h
    · rename_i i side t rest hboot
      split at h
      · rename_i session out hfill
        exact ⟨i, side, t, rest, session, out, hboot, hfill, (Option.some.inj h).symm⟩
      · cases h
    · cases h
  · rintro ⟨i, side, t, rest, session, out, hboot, hfill, rfl⟩
    simp only [World.fill, hboot, hfill]

theorem Inv.fill (hinj : Function.Injective uuid4) (hc : c.Accurate ε)
    (h : Inv c uuid4 acct cap slots₀ marks₀ w) {w' : World} (hw : w.fill c uuid4 acct = some w') :
    Inv c uuid4 acct cap slots₀ marks₀ w' := by
  obtain ⟨i, side, t, rest, session, out, hboot, hfill, rfl⟩ := World.fill_eq_some_iff.mp hw
  obtain ⟨slots, hplay, hheld, hrunning⟩ := h.slots
  have hrun := hrunning _ hboot
  obtain ⟨hfresh, hout, slots', hmove, hheld', hrun'⟩ := hrun.fill hinj hc h.fresh hheld hfill
  have hmarks : isoWeek i.today ∉ marks₀ := fun hm => hrun.unmarked ((h.marks _).mpr (.inl hm))
  have hlog : .marked (isoWeek i.today) ∉ w.log := fun hm =>
    hrun.unmarked ((h.marks _).mpr (.inr hm))
  refine ⟨hfresh, h.logged.snoc hmarks hlog ?_ nofun, ?_, slots', ?_, hheld', ?_⟩
  · rintro _ _ _ _ ⟨⟩ hor
    exact hout hor
  · intro week
    rw [h.marks, List.mem_append, List.mem_singleton]
    simp
  · rw [moves_snoc, play_append, hplay]
    exact hmove
  · rintro _ ⟨⟩
    exact hrun'

theorem Inv.start (hc : c.Accurate ε) (h : Inv c uuid4 acct cap slots₀ marks₀ w) {cash : ℚ}
    {p : TradePlan} (hs : Starts c acct cap w i cash p) :
    Inv c uuid4 acct cap slots₀ marks₀ { w with boot := some ⟨i, p.orders⟩ } := by
  obtain ⟨slots, hplay, hheld, -⟩ := h.slots
  have hpending := hs.pending hc hheld
  refine ⟨h.fresh, h.logged, h.marks, slots, hplay, hheld, ?_⟩
  rintro _ ⟨⟩
  exact ⟨hs.unmarked, ⟨cash, p, w.log, [], [], hs.plan, rfl, .nil, (List.append_nil _).symm⟩,
    p.sells, p.buys, rfl, hpending⟩

theorem Inv.finish (h : Inv c uuid4 acct cap slots₀ marks₀ w) (hboot : w.boot = some ⟨i, []⟩) :
    Inv c uuid4 acct cap slots₀ marks₀ w.finish := by
  obtain ⟨slots, hplay, hheld, hrunning⟩ := h.slots
  obtain ⟨hunmarked, ⟨cash, p, old, done, sent, hplan, horders, hsent, hlog⟩, -⟩ :=
    hrunning _ hboot
  have hmarks : isoWeek i.today ∉ marks₀ := fun hm => hunmarked ((h.marks _).mpr (.inl hm))
  have hlog' : .marked (isoWeek i.today) ∉ w.log := fun hm =>
    hunmarked ((h.marks _).mpr (.inr hm))
  have hfinish : w.finish = ⟨w.session, w.marks ++ [isoWeek i.today], none,
      w.log ++ [.marked (isoWeek i.today)]⟩ := by
    simp only [World.finish, hboot, World.markWeekDone, if_neg hunmarked]
  rw [hfinish]
  refine ⟨h.fresh, h.logged.snoc hmarks hlog' nofun ?_, ?_, slots, ?_, hheld, nofun⟩
  · rintro week ⟨⟩
    refine ⟨i, cash, p, old, sent, rfl, hplan, ?_, hlog⟩
    rwa [horders, List.append_nil]
  · intro week
    simp [h.marks, or_assoc]
  · rw [moves_snoc, play_append, hplay]
    rfl

theorem Inv.next (hinj : Function.Injective uuid4) (hc : c.Accurate ε) {e : Event}
    (h : Inv c uuid4 acct cap slots₀ marks₀ w) (he : w.Enabled c uuid4 acct cap e) :
    Inv c uuid4 acct cap slots₀ marks₀ (w.next c uuid4 acct e) := by
  cases e with
  | outside db =>
    obtain ⟨ha, hp, hfresh⟩ := he
    obtain ⟨slots, hplay, hheld, hrunning⟩ := h.slots
    refine ⟨hfresh, h.logged, h.marks, slots, hplay, hheld.congr hp, fun b hb => ?_⟩
    obtain ⟨hunmarked, hsent, sells, buys, hrest, hpending⟩ := hrunning b hb
    exact ⟨hunmarked, hsent, sells, buys, hrest, hpending.congr ha⟩
  | start i =>
    obtain ⟨cash, p, hs⟩ := he
    simp only [World.next, World.start, hs.balance, hs.plan, Option.getD_some]
    exact h.start hc hs
  | fill =>
    obtain ⟨w', hw'⟩ := Option.isSome_iff_exists.mp he
    rw [World.next, hw', Option.getD_some]
    exact h.fill hinj hc hw'
  | finish =>
    obtain ⟨i, hboot⟩ := he
    exact h.finish hboot
  | crash k =>
    obtain ⟨slots, hplay, hheld, -⟩ := h.slots
    exact ⟨fun n hn => h.fresh n (le_trans (Nat.le_add_right _ _) hn), h.logged, h.marks, slots,
      hplay, hheld, nofun⟩

end Reached

/-- Over every run of the boots, with crashes between any two orders, the applied fills are moves
of a portfolio of at most `cap` slots, and the account holds the slots they lead to. A sale is
never refused, nor is an order at whole prices; a week is marked once, after every order of one
plan, and has no fill after its mark. -/
theorem weekly_job_slots {uuid4 : ℕ → String} (hinj : Function.Injective uuid4) {acct : String}
    {cap : ℤ} {session : Session} {slots₀ : List (String × ℤ)} {marks₀ : List ℤ} {w : World}
    (hfresh : session.Fresh uuid4) (hheld : HeldAs session.db acct slots₀)
    (h : (weeklyJob Context.default uuid4 acct cap).Reaches ⟨session, marks₀, none, []⟩ w) :
    (∃ slots, play cap slots₀ (moves w.log) = some slots ∧ Positions w.session.db acct slots ∧
        (slots.length : ℤ) ≤ max cap slots₀.length) ∧
      Logged Context.default marks₀ w.log := by
  have hstart : Inv Context.default uuid4 acct cap slots₀ marks₀ ⟨session, marks₀, none, []⟩ :=
    ⟨hfresh, ⟨by simp, by simp, .nil, by simp⟩, by simp, slots₀, rfl, hheld, nofun⟩
  have hinv := h.invariant hstart fun _ _ hi he => hi.next hinj Context.accurate_default he
  obtain ⟨slots, hplay, hslots, -⟩ := hinv.slots
  exact ⟨⟨slots, hplay, hslots.positions, length_le hplay⟩, hinv.logged⟩

/-- A boot that sends its three orders and marks its week. -/
def demoStart : World := ⟨⟨demoLedger, 0⟩, [], none, []⟩

def demoEnd : World := (weeklyJob Context.default demoId "kr_ichimoku" 3).run demoStart
  [.start demoInputs, .fill, .fill, .fill, .finish]

theorem demoLedger_held : HeldAs demoLedger "kr_ichimoku" demoInputs.held where
  nodup := by decide
  whole sym := by
    by_cases hH : sym = "H"
    · subst hH
      refine ⟨10, by decide, ?_, fun q => by simp [demoInputs]⟩
      simp only [Ledger.held, demoLedger, if_true, demoHolding_quantity]
      norm_num [unit]
    · by_cases hK : sym = "K"
      · subst hK
        refine ⟨5, by decide, ?_, fun q => by simp [demoInputs]⟩
        simp only [Ledger.held, demoLedger, if_true, demoHolding_quantity]
        norm_num [unit]
      · refine ⟨0, le_rfl, ?_, fun q => by simp [demoInputs, hH, hK]⟩
        simp [Ledger.held, demoLedger]

theorem weekly_job_slots_demo : ∃ slots, play 3 demoInputs.held (moves demoEnd.log) = some slots ∧
    Positions demoEnd.session.db "kr_ichimoku" slots ∧ (slots.length : ℤ) ≤ 3 := by
  have hstarts : Starts Context.default "kr_ichimoku" 3 demoStart demoInputs 1000000 demoTrades :=
    ⟨rfl, List.not_mem_nil, by decide, rfl, demoLedger_positions, by decide +kernel,
      demo_planTrades⟩
  have hfills : ∀ k < 3, (((weeklyJob Context.default demoId "kr_ichimoku" 3).run demoStart
      (.start demoInputs :: List.replicate k .fill)).fill Context.default demoId
        "kr_ichimoku").isSome := by
    decide +kernel
  have hsent : ((weeklyJob Context.default demoId "kr_ichimoku" 3).run demoStart
      [.start demoInputs, .fill, .fill, .fill]).boot.map Boot.rest = some [] := by
    decide +kernel
  obtain ⟨⟨i, _⟩, hboot, rfl⟩ := Option.map_eq_some_iff.mp hsent
  have hallowed : (weeklyJob Context.default demoId "kr_ichimoku" 3).Allowed demoStart
      [.start demoInputs, .fill, .fill, .fill, .finish] :=
    ⟨⟨_, _, hstarts⟩, hfills 0 (by decide), hfills 1 (by decide), hfills 2 (by decide),
      ⟨i, hboot⟩, trivial⟩
  obtain ⟨⟨slots, hplay, hpos, hlen⟩, -⟩ := weekly_job_slots demoId_injective (fun _ _ => rfl)
    demoLedger_held (System.Reaches.start.run hallowed)
  exact ⟨slots, hplay, hpos, hlen⟩

end QuantTrader.Ichimoku
