import QuantTrader.Ichimoku.Plan
import QuantTrader.Rebalance.Executable

/-! # The plan against the ledger

The job sells first and then buys. With whole prices the plan's cash is the
balance to the last decimal, the sales booked, so the ledger covers every buy.
-/

namespace QuantTrader.Ichimoku

open Ledger PaperLedger Postgres Rebalance Transition

/-- The orders of a plan as `execute` sends them. -/
def TradePlan.orders (p : TradePlan) : List (Side × Trade) :=
  p.sells.map (Side.sell, ·) ++ p.buys.map (Side.buy, ·)

/-- The loop of `execute` over the orders, with what each fill returned. -/
def executeOrders (c : Context) (uuid4 : ℕ → String) (acct : String) :
    Session → List (Side × Trade) → Except Raise (Session × List Outcome)
  | s, [] => return (s, [])
  | s, (side, t) :: rest => do
    let (s, out) ← simulateFill c uuid4 s acct t.symbol side t.qty t.px
    let (s, outs) ← executeOrders c uuid4 acct s rest
    return (s, out :: outs)

/-- The account holds the shares of every sale. -/
def Covered (db : Db) (acct : String) (ts : List Trade) : Prop :=
  ∀ t ∈ ts, ∃ row y, db.positions acct t.symbol = some row ∧ row.quantity.val.val = .fin y ∧
    (t.qty : ℚ) ≤ y

section Runs

variable {c : Context} {ε x cash : ℚ} {uuid4 : ℕ → String} {acct : String} {s s' : Session}
  {side : Side} {t : Trade} {ts : List Trade} {os os' : List (Side × Trade)} {out : Outcome}
  {outs : List Outcome} {i : Inputs} {p : TradePlan} {db : Db}

theorem executeOrders_cons : executeOrders c uuid4 acct s ((side, t) :: os) = .ok (s', outs) ↔
    ∃ s₁ out outs₁, simulateFill c uuid4 s acct t.symbol side t.qty t.px = .ok (s₁, out) ∧
      executeOrders c uuid4 acct s₁ os = .ok (s', outs₁) ∧ outs = out :: outs₁ := by
  simp only [executeOrders, bind_ok_iff]
  constructor
  · rintro ⟨⟨s₁, out⟩, hfill, ⟨s₂, outs₁⟩, hrest, h⟩
    cases h
    exact ⟨s₁, out, outs₁, hfill, hrest, rfl⟩
  · rintro ⟨s₁, out, outs₁, hfill, hrest, rfl⟩
    exact ⟨_, hfill, _, hrest, rfl⟩

theorem executeOrders_append : executeOrders c uuid4 acct s (os ++ os') = .ok (s', outs) →
    ∃ s₁ outs₁ outs₂, executeOrders c uuid4 acct s os = .ok (s₁, outs₁) ∧
      executeOrders c uuid4 acct s₁ os' = .ok (s', outs₂) ∧ outs = outs₁ ++ outs₂ := by
  induction os generalizing s outs with
  | nil => exact fun h => ⟨s, [], outs, rfl, h, rfl⟩
  | cons o os ih =>
    obtain ⟨side, t⟩ := o
    intro h
    obtain ⟨s₁, out, outs₁, hfill, hrest, rfl⟩ := executeOrders_cons.mp h
    obtain ⟨s₂, outs₂, outs₃, hos, hos', rfl⟩ := ih hrest
    exact ⟨s₂, out :: outs₂, outs₃, executeOrders_cons.mpr ⟨s₁, out, outs₂, hfill, hos, rfl⟩, hos',
      rfl⟩

/-- A sale of shares that are held is applied at its exact proceeds. -/
theorem sell_step (hinj : Function.Injective uuid4) (hc : c.Accurate ε) (hs : s.Fresh uuid4)
    (hx : Holds s.db acct x) (ht : t.Whole) (hheld : Covered s.db acct [t])
    (h : simulateFill c uuid4 s acct t.symbol .sell t.qty t.px = .ok (s', out)) :
    out = .applied ∧ s'.Fresh uuid4 ∧ SameBut acct t.symbol s.db s'.db ∧
      Holds s'.db acct (x + t.earned) := by
  have hval := ht.value_nonneg
  obtain ⟨n, -, hpx⟩ := ht.px
  rw [Trade.earned]
  rw [hpx] at h hval ⊢
  obtain ⟨hfresh, hsame, fee, hfee, hset⟩ := simulateFill_settled hinj hs hx h
  obtain ⟨hout, hholds⟩ := sold_whole hc hx hval (hheld t List.mem_cons_self) hfee hset
  exact ⟨hout, hfresh, hsame, hholds⟩

/-- A buy within the balance is applied at its exact cost. -/
theorem buy_step (hinj : Function.Injective uuid4) (hc : c.Accurate ε) (hs : s.Fresh uuid4)
    (hx : Holds s.db acct x) (ht : t.Whole) (hle : t.cost ≤ x)
    (h : simulateFill c uuid4 s acct t.symbol .buy t.qty t.px = .ok (s', out)) :
    out = .applied ∧ s'.Fresh uuid4 ∧ Holds s'.db acct (x - t.cost) := by
  have hval := ht.value_nonneg
  obtain ⟨n, -, hpx⟩ := ht.px
  rw [Trade.cost] at hle ⊢
  rw [hpx] at h hval hle ⊢
  obtain ⟨hfresh, -, fee, hfee, hset⟩ := simulateFill_settled hinj hs hx h
  obtain ⟨hout, hholds⟩ := bought_whole hc hx hval hle hfee hset
  exact ⟨hout, hfresh, hholds⟩

theorem sells_run (hinj : Function.Injective uuid4) (hc : c.Accurate ε) (hs : s.Fresh uuid4)
    (hx : Holds s.db acct x) (hts : ∀ t ∈ ts, t.Whole) (hnodup : (ts.map Trade.symbol).Nodup)
    (hheld : Covered s.db acct ts)
    (h : executeOrders c uuid4 acct s (ts.map (Side.sell, ·)) = .ok (s', outs)) :
    (∀ out ∈ outs, out = .applied) ∧ s'.Fresh uuid4 ∧
      Holds s'.db acct (x + (ts.map Trade.earned).sum) := by
  induction ts generalizing s x outs with
  | nil =>
    cases h
    rw [List.map_nil, List.sum_nil, add_zero]
    exact ⟨nofun, hs, hx⟩
  | cons t ts ih =>
    obtain ⟨ht, hts⟩ := List.forall_mem_cons.mp hts
    obtain ⟨hsym, hnodup⟩ := List.nodup_cons.mp hnodup
    obtain ⟨s₁, out, outs₁, hfill, hrest, rfl⟩ := executeOrders_cons.mp h
    have hone : Covered s.db acct [t] := by
      intro t' ht'
      obtain rfl := List.mem_singleton.mp ht'
      exact hheld _ List.mem_cons_self
    obtain ⟨hout, hs₁, hsame, hx₁⟩ := sell_step hinj hc hs hx ht hone hfill
    -- the sale leaves the holdings of the later ones alone
    have hheld₁ : Covered s₁.db acct ts := by
      intro t' ht'
      have hne : t'.symbol ≠ t.symbol := fun heq => hsym (heq ▸ List.mem_map_of_mem ht')
      rw [hsame.positions acct t'.symbol (Or.inr hne)]
      exact hheld t' (List.mem_cons_of_mem _ ht')
    obtain ⟨houts, hs', hx'⟩ := ih hs₁ hx₁ hts hnodup hheld₁ hrest
    rw [List.map_cons, List.sum_cons, ← add_assoc]
    exact ⟨List.forall_mem_cons.mpr ⟨hout, houts⟩, hs', hx'⟩

theorem buys_run (hinj : Function.Injective uuid4) (hc : c.Accurate ε) (hs : s.Fresh uuid4)
    (hx : Holds s.db acct x) (hts : ∀ t ∈ ts, t.Whole) (hafford : Affords x ts)
    (h : executeOrders c uuid4 acct s (ts.map (Side.buy, ·)) = .ok (s', outs)) :
    ∀ out ∈ outs, out = .applied := by
  induction ts generalizing s x outs with
  | nil =>
    cases h
    exact nofun
  | cons t ts ih =>
    obtain ⟨ht, hts⟩ := List.forall_mem_cons.mp hts
    obtain ⟨hle, hafford⟩ := hafford
    obtain ⟨s₁, out, outs₁, hfill, hrest, rfl⟩ := executeOrders_cons.mp h
    obtain ⟨hout, hs₁, hx₁⟩ := buy_step hinj hc hs hx ht hle hfill
    exact List.forall_mem_cons.mpr ⟨hout, ih hs₁ hx₁ hts hafford hrest⟩

theorem Affords.take (h : Affords x ts) (k : ℕ) : Affords x (ts.take k) := by
  induction ts generalizing x k with
  | nil => simpa using h
  | cons t ts ih =>
    cases k with
    | zero => trivial
    | succ k => exact ⟨h.1, ih h.2 k⟩

theorem positions_mem (h : Positions db acct i.held) {e : String × ℤ} (he : e ∈ i.held) :
    0 ≤ e.2 ∧ ∃ row y, db.positions acct e.1 = some row ∧ row.quantity.val.val = .fin y ∧
      (e.2 : ℚ) ≤ y := by
  obtain ⟨row, y, hrow, hy, hpos, hq⟩ := (h.mem_iff e.1 e.2).mp he
  rw [Context.truncate, if_pos hpos.le] at hq
  rw [hq]
  exact ⟨Int.floor_nonneg.mpr hpos.le, row, y, hrow, hy, Int.floor_le y⟩

/-- The orders of a plan on the ledger it was made from. -/
theorem orders_run (hinj : Function.Injective uuid4) (hc : c.Accurate ε) (hs : s.Fresh uuid4)
    (hi : i.WholePrices) (hheld : Positions s.db acct i.held) (hx : Holds s.db acct cash)
    (hplan : i.planTrades c cash = .ok p) (k : ℕ)
    (h : executeOrders c uuid4 acct s (p.orders.take k) = .ok (s', outs)) :
    ∀ out ∈ outs, out = .applied := by
  obtain ⟨avail, perName, havail, hsells, -, -, hbuys⟩ := planTrades_ok hplan
  have hwhole : ∀ t ∈ i.sells, t.Whole := fun t ht =>
    sells_whole hi (fun e he => (positions_mem hheld he).1) ht
  have hcovered : Covered s.db acct i.sells := fun t ht =>
    (positions_mem hheld (mem_sells.mp ht).1).2
  rw [TradePlan.orders, List.take_append, ← List.map_take, ← List.map_take, hsells,
    List.length_map] at h
  obtain ⟨s₁, outs₁, outs₂, hsold, hbought, rfl⟩ := executeOrders_append h
  obtain ⟨houts₁, hs₁, hx₁⟩ := sells_run hinj hc hs hx
    (fun t ht => hwhole t (List.mem_of_mem_take ht))
    ((sells_nodup hheld.nodup).sublist ((List.take_sublist k _).map _))
    (fun t ht => hcovered t (List.mem_of_mem_take ht)) hsold
  rw [List.forall_mem_append]
  refine ⟨houts₁, ?_⟩
  rcases le_or_gt k i.sells.length with hk | hk
  · rw [Nat.sub_eq_zero_of_le hk] at hbought
    cases hbought
    exact nofun
  · rw [List.take_of_length_le hk.le] at hx₁
    obtain rfl := Except.ok.inj (havail.symm.trans
      (avail_eq hc hwhole hx.nonneg (onGrid_of_holds hx) hx₁.lt))
    obtain ⟨hts, hafford⟩ := hbuys.affords hc hi (fun e he => (mem_cands.mp he).1)
      (onGrid_of_holds hx₁) hx₁.nonneg hx₁.lt
    exact buys_run hinj hc hs₁ hx₁ (fun t ht => hts t (List.mem_of_mem_take ht))
      (hafford.take _) hbought

end Runs

/-- The symbols a plan buys are neither kept nor sold, it stays within its slots, and its orders
are never rejected by a ledger in the state of its snapshot. -/
theorem plan_executes {i : Inputs} {cash : ℚ} {p : TradePlan} (hi : i.WholePrices)
    (hplan : i.planTrades Context.default cash = .ok p) :
    (∀ t ∈ p.buys, t.symbol ∉ p.keep.map Prod.fst ∧ t.symbol ∉ p.sells.map Trade.symbol) ∧
      (p.keep.length : ℤ) + p.buys.length ≤ max i.maxPositions p.keep.length ∧
      ∀ (uuid4 : ℕ → String) (db : Db) (acct : String), Function.Injective uuid4 →
        (∀ n, db.recorded (uuid4 n) = false) → Positions db acct i.held →
        PaperLedger.cash db acct = .fin cash →
        ∀ k s outs, executeOrders Context.default uuid4 acct ⟨db, 0⟩ (p.orders.take k) =
          .ok (s, outs) → ∀ out ∈ outs, out = .applied := by
  obtain ⟨avail, perName, -, hsells, hkeep, hlen, hbuys⟩ := planTrades_ok hplan
  refine ⟨?_, ?_, ?_⟩
  · intro t ht
    obtain ⟨sig, hmem⟩ := hbuys.mem_cands ht
    obtain ⟨-, -, hk, hs⟩ := mem_cands.mp hmem
    rw [hkeep, hsells]
    exact ⟨hk, hs⟩
  · rw [hkeep]
    omega
  · intro uuid4 db acct hinj hfresh hheld hcash k s outs h
    cases hacct : db.accounts acct with
    | some bal =>
      simp only [PaperLedger.cash, hacct] at hcash
      exact orders_run hinj Context.accurate_default (fun n _ => hfresh n) hi hheld
        ⟨bal, hacct, hcash⟩ hplan k h
    | none =>
      -- without an account the first order raises
      cases horders : p.orders.take k with
      | nil =>
        rw [horders] at h
        cases h
        exact nofun
      | cons o os =>
        obtain ⟨side, t⟩ := o
        rw [horders] at h
        obtain ⟨s₁, out, outs₁, hfill, -⟩ := executeOrders_cons.mp h
        have hsome := isSome_of_simulateFill hfill
        rw [hacct] at hsome
        cases hsome

/-! ## A plan of one sale and two buys -/

def demoClose : String → Option ℚ
  | "A" => some 100
  | "B" => some 200
  | "C" => some 50
  | "H" => some 80
  | "K" => some 90
  | _ => none

/-- Three entries of different strength, a holding that exits and one that stays. -/
def demoInputs : Inputs where
  signals := [("A", ⟨some 100, true, false, 10 / 100⟩), ("B", ⟨some 200, true, false, 30 / 100⟩),
    ("C", ⟨some 50, true, false, 5 / 100⟩), ("H", ⟨some 80, false, true, -2 / 100⟩),
    ("K", ⟨some 90, false, false, 1 / 100⟩)]
  held := [("H", 10), ("K", 5)]
  closes := demoClose
  lastBar _ := some 0
  today := 0
  maxPositions := 3

def demoTrades : TradePlan where
  sells := [⟨"H", 10, 80⟩]
  buys := [⟨"B", 1667, 200⟩, ⟨"A", 3335, 100⟩]
  keep := [("K", 5)]
  targets := ["B", "A", "C"]

theorem demo_planTrades : demoInputs.planTrades Context.default 1000000 = .ok demoTrades := by
  decide +kernel

def demoHolding (n : ℤ) (h : |(n : ℚ) * unit 12| < bound 28 12)
    (h0 : NonNeg (ofCoeff 28 12 n h).val) : Position :=
  ⟨⟨ofCoeff 28 12 n h, h0⟩, ofCoeff 20 4 700000 (by decide +kernel)⟩

def demoLedger : Db where
  accounts a := if a = "kr_ichimoku" then
    some ⟨ofCoeff 20 4 10000000000 (by decide +kernel), by decide +kernel⟩ else none
  positions a sym := if a = "kr_ichimoku" then
    match sym with
    | "H" => some (demoHolding (10 * 10 ^ 12) (by decide +kernel) (by decide +kernel))
    | "K" => some (demoHolding (5 * 10 ^ 12) (by decide +kernel) (by decide +kernel))
    | _ => none
    else none
  orders _ := none
  executions := []

theorem demoHolding_quantity {n : ℤ} {h : |(n : ℚ) * unit 12| < bound 28 12}
    {h0 : NonNeg (ofCoeff 28 12 n h).val} :
    (demoHolding n h h0).quantity.val.val = .fin (n * unit 12) := rfl

theorem demoInputs_whole : demoInputs.WholePrices where
  closes sym p h := by
    simp only [demoInputs, demoClose] at h
    split at h <;> cases h <;> decide
  signals e he p hp := by
    simp only [demoInputs, List.mem_cons, List.not_mem_nil, or_false] at he
    rcases he with rfl | rfl | rfl | rfl | rfl <;> cases hp <;> decide

theorem demoLedger_positions : Positions demoLedger "kr_ichimoku" demoInputs.held where
  nodup := by decide
  mem_iff sym q := by
    constructor
    · intro h
      simp only [demoInputs, List.mem_cons, Prod.mk.injEq, List.not_mem_nil, or_false] at h
      rcases h with ⟨rfl, rfl⟩ | ⟨rfl, rfl⟩
      · exact ⟨_, _, rfl, demoHolding_quantity, by norm_num [unit],
          by norm_num [unit, Context.truncate]⟩
      · exact ⟨_, _, rfl, demoHolding_quantity, by norm_num [unit],
          by norm_num [unit, Context.truncate]⟩
    · rintro ⟨row, x, hrow, hx, -, rfl⟩
      simp only [demoLedger, if_true] at hrow
      split at hrow <;> cases hrow
      · rw [demoHolding_quantity] at hx
        obtain rfl := Decimal.fin.inj hx
        norm_num [unit, Context.truncate, demoInputs]
      · rw [demoHolding_quantity] at hx
        obtain rfl := Decimal.fin.inj hx
        norm_num [unit, Context.truncate, demoInputs]

theorem plan_executes_demo : ∃ s outs, executeOrders Context.default demoId "kr_ichimoku"
    ⟨demoLedger, 0⟩ demoTrades.orders = .ok (s, outs) ∧ outs.length = 3 ∧
      ∀ out ∈ outs, out = .applied := by
  have hrun : (Prod.snd <$> executeOrders Context.default demoId "kr_ichimoku" ⟨demoLedger, 0⟩
      (demoTrades.orders.take 3)) = .ok [.applied, .applied, .applied] := by
    decide +kernel
  obtain ⟨⟨s, outs⟩, h, houts⟩ := map_ok_iff.mp hrun
  obtain ⟨-, -, hexec⟩ := plan_executes demoInputs_whole demo_planTrades
  have happlied := hexec demoId demoLedger "kr_ichimoku" demoId_injective (fun _ => rfl)
    demoLedger_positions (by decide +kernel) 3 s outs h
  exact ⟨s, outs, h, by rw [show outs = _ from houts]; rfl, happlied⟩

end QuantTrader.Ichimoku
