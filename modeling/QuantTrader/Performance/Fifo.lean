import Mathlib.Algebra.BigOperators.Group.Finset.Piecewise
import Mathlib.Algebra.Order.Ring.Rat
import Mathlib.Tactic.Linarith
import Mathlib.Tactic.Ring
import QuantTrader.Ledger.Tables

/-! # Realised profit by first in, first out

The performance route matches every sell with the oldest lots of its symbol. While
sells do not exceed holdings, a sell is matched in full, the lots left over are what
is held, and no money appears or disappears: the realised profit is what the sells
brought in less what the buys cost, plus the cost of the lots left over.
-/

namespace QuantTrader.Performance

open Ledger

/-- The columns of a row of `executions` that the route reads. -/
structure Row where
  symbol : String
  side : Side
  price : ℚ
  quantity : ℚ
  fee : ℚ
  deriving DecidableEq

/-- A lot: the quantity left and the unit cost, fee included. -/
abbrev Lot := ℚ × ℚ

/-- Quantities up to this count as nothing left. -/
def tiny : ℚ := 1 / 10 ^ 18

/-- What is left of a sell, the cost matched so far and the lots. -/
structure Matched where
  remaining : ℚ
  cost : ℚ
  lots : List Lot

/-- The inner loop of a sell. A lot that is not used up ends the loop, as nothing is left. -/
def matchLots (remaining cost : ℚ) : List Lot → Matched
  | [] => ⟨remaining, cost, []⟩
  | (left, unit) :: dq =>
    if tiny < remaining then
      let take := min remaining left
      if left - take ≤ tiny then matchLots (remaining - take) (cost + take * unit) dq
      else matchLots (remaining - take) (cost + take * unit) ((left - take, unit) :: dq)
    else ⟨remaining, cost, (left, unit) :: dq⟩
termination_by lots => (lots.length, if tiny < remaining then 1 else 0)
decreasing_by
  · exact Prod.Lex.left _ _ (by simp)
  · apply Prod.Lex.right
    rcases le_total remaining left with h | h <;> simp_all [take, tiny]

/-- The tally of the route after some executions. -/
structure Tally where
  lots : String → List Lot := fun _ => []
  realized : ℚ := 0
  fees : ℚ := 0
  wins : ℕ := 0
  losses : ℕ := 0
  nBuy : ℕ := 0
  nSell : ℕ := 0

def Tally.matched (t : Tally) (r : Row) : Matched := matchLots r.quantity 0 (t.lots r.symbol)

def Tally.buy (t : Tally) (r : Row) : Tally :=
  { t with
    lots := Function.update t.lots r.symbol
      (t.lots r.symbol ++ [(r.quantity, (r.price * r.quantity + r.fee) / r.quantity)])
    fees := t.fees + r.fee
    nBuy := t.nBuy + 1 }

def Tally.sell (t : Tally) (r : Row) : Tally :=
  let m := t.matched r
  let pnl := (r.price * r.quantity - r.fee) - m.cost
  { t with
    lots := Function.update t.lots r.symbol m.lots
    realized := t.realized + pnl
    fees := t.fees + r.fee
    wins := if 0 < pnl then t.wins + 1 else t.wins
    losses := if 0 < pnl then t.losses else t.losses + 1
    nSell := t.nSell + 1 }

def Tally.add (t : Tally) (r : Row) : Tally :=
  match r.side with
  | .buy => t.buy r
  | .sell => t.sell r

def tally (rows : List Row) : Tally := rows.foldl Tally.add {}

structure Payload where
  realizedPnl : ℚ
  totalFees : ℚ
  numTrades : ℕ
  numBuys : ℕ
  numSells : ℕ
  closedTrades : ℕ
  wins : ℕ
  winRate : Option ℚ
  deriving DecidableEq

def payload (rows : List Row) : Payload :=
  let t := tally rows
  let closed := t.wins + t.losses
  { realizedPnl := t.realized
    totalFees := t.fees
    numTrades := t.nBuy + t.nSell
    numBuys := t.nBuy
    numSells := t.nSell
    closedTrades := closed
    wins := t.wins
    winRate := if closed = 0 then none else some (t.wins / closed) }

/-! ## One sell -/

/-- A count of at most twelve decimals. -/
def Whole (q : ℚ) : Prop := ∃ n : ℤ, q = n / 10 ^ 12

def total (lots : List Lot) : ℚ := (lots.map Prod.fst).sum

def cost (lots : List Lot) : ℚ := (lots.map fun l => l.1 * l.2).sum

/-- Lots of positive quantities of at most twelve decimals. -/
def Stocked (lots : List Lot) : Prop := ∀ l ∈ lots, 0 < l.1 ∧ Whole l.1

section

variable {lots : List Lot} {p q u : ℚ}

@[simp] theorem total_cons : total ((q, u) :: lots) = q + total lots := by simp [total]

@[simp] theorem cost_nil : cost [] = 0 := rfl

@[simp] theorem cost_cons : cost ((q, u) :: lots) = q * u + cost lots := by simp [cost]

@[simp] theorem total_snoc : total (lots ++ [(q, u)]) = total lots + q := by simp [total]

@[simp] theorem cost_snoc : cost (lots ++ [(q, u)]) = cost lots + q * u := by simp [cost]

theorem Whole.sub (hp : Whole p) (hq : Whole q) : Whole (p - q) := by
  obtain ⟨m, rfl⟩ := hp
  obtain ⟨n, rfl⟩ := hq
  exact ⟨m - n, by push_cast; ring⟩

theorem Whole.le_tiny_iff (hq : Whole q) : q ≤ tiny ↔ q ≤ 0 := by
  obtain ⟨n, rfl⟩ := hq
  rw [tiny, div_le_div_iff₀ (by norm_num) (by norm_num), div_le_iff₀ (by norm_num)]
  norm_cast
  constructor <;> intro h <;> omega

theorem stocked_cons : Stocked ((q, u) :: lots) ↔ (0 < q ∧ Whole q) ∧ Stocked lots :=
  List.forall_mem_cons

theorem Stocked.total_nonneg (h : Stocked lots) : 0 ≤ total lots := by
  induction lots with
  | nil => rfl
  | cons l lots ih =>
    obtain ⟨⟨hq, -⟩, hl⟩ := stocked_cons.mp h
    rw [total_cons]
    exact add_nonneg hq.le (ih hl)

/-- What a sell of no more than the lots leaves behind. -/
structure Filled (q c : ℚ) (lots : List Lot) (m : Matched) : Prop where
  remaining_eq : m.remaining = 0
  total_eq : total m.lots = total lots - q
  cost_eq : m.cost = c + (cost lots - cost m.lots)
  stocked : Stocked m.lots

theorem take_of_used {left : ℚ} (hq : Whole q) (hleft : Whole left)
    (h : left - min q left ≤ tiny) : min q left = left := by
  rcases min_choice q left with heq | heq
  · rw [heq] at h
    have h1 := (hleft.sub hq).le_tiny_iff.mp h
    have h2 : q ≤ left := heq ▸ min_le_right q left
    linarith
  · exact heq

theorem take_of_kept {left : ℚ} (h : ¬ left - min q left ≤ tiny) : min q left = q := by
  rcases min_choice q left with heq | heq
  · exact heq
  · rw [heq, sub_self] at h
    exact absurd (by norm_num [tiny]) h

theorem Filled.used {c left unit : ℚ} {m : Matched}
    (h : Filled (q - left) (c + left * unit) lots m) : Filled q c ((left, unit) :: lots) m where
  remaining_eq := h.remaining_eq
  total_eq := by
    rw [h.total_eq, total_cons]
    ring
  cost_eq := by
    rw [h.cost_eq, cost_cons]
    ring
  stocked := h.stocked

theorem Filled.kept {c left unit : ℚ} {m : Matched}
    (h : Filled (q - q) (c + q * unit) ((left - q, unit) :: lots) m) :
    Filled q c ((left, unit) :: lots) m where
  remaining_eq := h.remaining_eq
  total_eq := by
    rw [h.total_eq, total_cons, total_cons]
    ring
  cost_eq := by
    rw [h.cost_eq, cost_cons, cost_cons]
    ring
  stocked := h.stocked

theorem matchLots_filled {c : ℚ} (hl : Stocked lots) (hq : Whole q) (h0 : 0 ≤ q)
    (hle : q ≤ total lots) : Filled q c lots (matchLots q c lots) := by
  fun_induction matchLots q c lots with
  | case1 q c =>
    have hq0 : q = 0 := le_antisymm hle h0
    exact ⟨hq0, by simp [hq0], by simp, hl⟩
  | case2 q c left unit dq hlt take hused ih =>
    obtain ⟨⟨hpos, hleft⟩, hdq⟩ := stocked_cons.mp hl
    have htake : take = left := take_of_used hq hleft hused
    have hge : left ≤ q := htake ▸ min_le_left _ _
    rw [total_cons] at hle
    rw [htake] at ih ⊢
    exact (ih hdq (hq.sub hleft) (sub_nonneg.mpr hge) (by linarith)).used
  | case3 q c left unit dq hlt take hkept ih =>
    obtain ⟨⟨hpos, hleft⟩, hdq⟩ := stocked_cons.mp hl
    have htake : take = q := take_of_kept hkept
    have hw : Whole (left - q) := hleft.sub hq
    rw [htake] at ih hkept ⊢
    have hrest : 0 < left - q := not_le.mp fun h => hkept (hw.le_tiny_iff.mpr h)
    have hl' : Stocked ((left - q, unit) :: dq) := stocked_cons.mpr ⟨⟨hrest, hw⟩, hdq⟩
    exact (ih hl' (hq.sub hq) (sub_self q).ge (by rw [sub_self]; exact hl'.total_nonneg)).kept
  | case4 q c left unit dq hlt =>
    have hq0 : q = 0 := le_antisymm (hq.le_tiny_iff.mp (not_lt.mp hlt)) h0
    exact ⟨hq0, by simp [hq0], by simp, hl⟩

end

/-! ## A history -/

def held (rows : List Row) (sym : String) : ℚ :=
  ((rows.filter (·.symbol = sym)).map fun r =>
    match r.side with
    | .buy => r.quantity
    | .sell => -r.quantity).sum

def proceeds (rows : List Row) : ℚ :=
  ((rows.filter (·.side = .sell)).map fun r => r.price * r.quantity - r.fee).sum

def spent (rows : List Row) : ℚ :=
  ((rows.filter (·.side = .buy)).map fun r => r.price * r.quantity + r.fee).sum

/-- Positive quantities of at most twelve decimals, and no sell beyond what is held. -/
structure History (rows : List Row) : Prop where
  pos : ∀ r ∈ rows, 0 < r.quantity
  whole : ∀ r ∈ rows, Whole r.quantity
  covered : ∀ i (h : i < rows.length), rows[i].side = .sell →
    rows[i].quantity ≤ held (rows.take i) rows[i].symbol

/-- Every sell of a history is matched in full. -/
def SellsFilled (rows : List Row) : Prop :=
  ∀ i (h : i < rows.length), rows[i].side = .sell →
    ((tally (rows.take i)).matched rows[i]).remaining = 0

section

variable {rows : List Row} {r : Row}

theorem tally_snoc : tally (rows ++ [r]) = (tally rows).add r := by simp [tally]

/-- A condition on the rows of a history with what stood before them, one row more. -/
theorem forall_take_snoc_iff {P : List Row → Row → Prop} :
    (∀ i (h : i < (rows ++ [r]).length), P ((rows ++ [r]).take i) (rows ++ [r])[i]) ↔
      (∀ i (h : i < rows.length), P (rows.take i) rows[i]) ∧ P rows r := by
  constructor
  · intro h
    refine ⟨fun i hi => ?_, ?_⟩
    · have := h i (by simp; omega)
      rwa [List.take_append_of_le_length hi.le, List.getElem_append_left hi] at this
    · have := h rows.length (by simp)
      simpa using this
  · rintro ⟨h, hr⟩ i hi
    rcases Nat.lt_or_ge i rows.length with hi' | hi'
    · rw [List.take_append_of_le_length hi'.le, List.getElem_append_left hi']
      exact h i hi'
    · obtain rfl : i = rows.length := by simp at hi; omega
      simpa using hr

theorem sum_filter_snoc {p : Row → Bool} {f : Row → ℚ} : (((rows ++ [r]).filter p).map f).sum =
    ((rows.filter p).map f).sum + if p r then f r else 0 := by
  cases hp : p r <;> simp [hp]

@[simp] theorem held_snoc (sym : String) : held (rows ++ [r]) sym = held rows sym +
    if r.symbol = sym then (match r.side with | .buy => r.quantity | .sell => -r.quantity)
    else 0 := by
  simpa only [held, decide_eq_true_eq] using sum_filter_snoc (p := (·.symbol = sym))

@[simp] theorem proceeds_snoc : proceeds (rows ++ [r]) = proceeds rows +
    if r.side = .sell then r.price * r.quantity - r.fee else 0 := by
  simpa only [proceeds, decide_eq_true_eq] using sum_filter_snoc (p := (·.side = .sell))

@[simp] theorem spent_snoc : spent (rows ++ [r]) = spent rows +
    if r.side = .buy then r.price * r.quantity + r.fee else 0 := by
  simpa only [spent, decide_eq_true_eq] using sum_filter_snoc (p := (·.side = .buy))

theorem sum_cost_update {S : Finset String} {lots : String → List Lot} {sym : String}
    (hS : sym ∈ S) (dq : List Lot) : ∑ s ∈ S, cost (Function.update lots sym dq s) =
      ∑ s ∈ S, cost (lots s) + (cost dq - cost (lots sym)) := by
  have hcomp : (fun s => cost (Function.update lots sym dq s)) =
      Function.update (fun s => cost (lots s)) sym (cost dq) := by
    funext s
    exact Function.apply_update (fun _ => cost) lots sym dq s
  rw [hcomp, Finset.sum_update_of_mem hS, ← Finset.add_sum_erase S _ hS,
    Finset.sdiff_singleton_eq_erase]
  ring

@[simp] theorem buy_lots (t : Tally) : (t.buy r).lots = Function.update t.lots r.symbol
    (t.lots r.symbol ++ [(r.quantity, (r.price * r.quantity + r.fee) / r.quantity)]) := rfl

@[simp] theorem sell_lots (t : Tally) :
    (t.sell r).lots = Function.update t.lots r.symbol (t.matched r).lots := rfl

@[simp] theorem buy_realized (t : Tally) : (t.buy r).realized = t.realized := rfl

@[simp] theorem sell_realized (t : Tally) : (t.sell r).realized =
    t.realized + ((r.price * r.quantity - r.fee) - (t.matched r).cost) := rfl

/-- What the tally keeps after a history. -/
structure Conserves (rows : List Row) (t : Tally) : Prop where
  stocked : ∀ s, Stocked (t.lots s)
  total_eq : ∀ s, total (t.lots s) = held rows s
  realized_eq : ∀ S : Finset String, (∀ r ∈ rows, r.symbol ∈ S) →
    t.realized = proceeds rows - spent rows + ∑ s ∈ S, cost (t.lots s)

theorem conserves_nil : Conserves [] {} where
  stocked := fun _ => List.forall_mem_nil _
  total_eq := fun _ => rfl
  realized_eq := by simp [proceeds, spent]

namespace Conserves

variable {t : Tally} (h : Conserves rows t) (hpos : 0 < r.quantity) (hw : Whole r.quantity)

include h hpos hw

theorem buy (hs : r.side = .buy) : Conserves (rows ++ [r]) (t.buy r) where
  stocked s := by
    rcases eq_or_ne s r.symbol with rfl | hne
    · rw [buy_lots, Function.update_self]
      intro l hl
      rcases List.mem_append.mp hl with hl | hl
      · exact h.stocked _ l hl
      · rw [List.mem_singleton.mp hl]
        exact ⟨hpos, hw⟩
    · rw [buy_lots, Function.update_of_ne hne]
      exact h.stocked s
  total_eq s := by
    rcases eq_or_ne s r.symbol with rfl | hne
    · simp [h.total_eq, hs]
    · simp [Function.update_of_ne hne, h.total_eq, hne.symm]
  realized_eq S hS := by
    have hmem : r.symbol ∈ S := hS r (by simp)
    have hcost : r.quantity * ((r.price * r.quantity + r.fee) / r.quantity) =
        r.price * r.quantity + r.fee := mul_div_cancel₀ _ hpos.ne'
    have hr := h.realized_eq S fun x hx => hS x (List.mem_append_left _ hx)
    simp only [buy_lots, buy_realized, sum_cost_update hmem, cost_snoc, hcost, proceeds_snoc,
      spent_snoc, hs, hr, if_true, reduceCtorEq, if_false]
    ring

theorem sell (hs : r.side = .sell) (hc : r.quantity ≤ held rows r.symbol) :
    (t.matched r).remaining = 0 ∧ Conserves (rows ++ [r]) (t.sell r) := by
  have hf : Filled r.quantity 0 (t.lots r.symbol) (t.matched r) :=
    matchLots_filled (h.stocked _) hw hpos.le (h.total_eq _ ▸ hc)
  refine ⟨hf.remaining_eq, ?_, ?_, ?_⟩
  · intro s
    rcases eq_or_ne s r.symbol with rfl | hne
    · simpa only [sell_lots, Function.update_self] using hf.stocked
    · rw [sell_lots, Function.update_of_ne hne]
      exact h.stocked s
  · intro s
    rcases eq_or_ne s r.symbol with rfl | hne
    · simp [hf.total_eq, h.total_eq, hs, sub_eq_add_neg]
    · simp [Function.update_of_ne hne, h.total_eq, hne.symm]
  · intro S hS
    have hmem : r.symbol ∈ S := hS r (by simp)
    have hr := h.realized_eq S fun x hx => hS x (List.mem_append_left _ hx)
    simp only [sell_lots, sell_realized, sum_cost_update hmem, hf.cost_eq, proceeds_snoc,
      spent_snoc, hs, hr, if_true, reduceCtorEq, if_false]
    ring

end Conserves

theorem History.of_snoc (h : History (rows ++ [r])) : History rows ∧ 0 < r.quantity ∧
    Whole r.quantity ∧ (r.side = .sell → r.quantity ≤ held rows r.symbol) := by
  obtain ⟨hpos, hwhole, hcov⟩ := h
  rw [List.forall_mem_append] at hpos hwhole
  have hcov' := (forall_take_snoc_iff (P := fun before r => r.side = .sell →
    r.quantity ≤ held before r.symbol)).mp hcov
  exact ⟨⟨hpos.1, hwhole.1, hcov'.1⟩, hpos.2 r (List.mem_singleton_self r),
    hwhole.2 r (List.mem_singleton_self r), hcov'.2⟩

theorem conserves (h : History rows) : SellsFilled rows ∧ Conserves rows (tally rows) := by
  induction rows using List.reverseRecOn with
  | nil => exact ⟨fun i hi => absurd hi (Nat.not_lt_zero i), conserves_nil⟩
  | append_singleton rows r ih =>
    obtain ⟨hrows, hpos, hw, hc⟩ := h.of_snoc
    obtain ⟨hfilled, hcons⟩ := ih hrows
    have hsnoc : (r.side = .sell → ((tally rows).matched r).remaining = 0) ∧
        Conserves (rows ++ [r]) (tally (rows ++ [r])) := by
      rw [tally_snoc, Tally.add]
      cases hs : r.side with
      | buy => exact ⟨nofun, hcons.buy hpos hw hs⟩
      | sell => exact (hcons.sell hpos hw hs (hc hs)).imp_left fun h _ => h
    refine ⟨?_, hsnoc.2⟩
    exact (forall_take_snoc_iff (P := fun before r => r.side = .sell →
      ((tally before).matched r).remaining = 0)).mpr ⟨hfilled, hsnoc.1⟩

/-- While sells do not exceed holdings, every sell is matched in full, the lots left over sum to
what is held, and realised profit is proceeds less cost plus the cost of the lots left over. -/
theorem fifo_conserves (h : History rows) : SellsFilled rows ∧
    (∀ sym, total ((tally rows).lots sym) = held rows sym) ∧
    (payload rows).realizedPnl = proceeds rows - spent rows +
      ∑ sym ∈ (rows.map Row.symbol).toFinset, cost ((tally rows).lots sym) := by
  obtain ⟨hf, hc⟩ := conserves h
  refine ⟨hf, hc.total_eq, hc.realized_eq _ fun r hr => ?_⟩
  simpa using ⟨r, hr, rfl⟩

end

theorem fifo_conserves_partial :
    let rows : List Row := [⟨"BTC", .buy, 100, 1, 1⟩, ⟨"BTC", .buy, 120, 1 / 2, 1⟩,
      ⟨"BTC", .sell, 130, 5 / 4, 1⟩]
    SellsFilled rows ∧ (∀ sym, total ((tally rows).lots sym) = held rows sym) ∧
      (payload rows).realizedPnl = proceeds rows - spent rows +
        ∑ sym ∈ (rows.map Row.symbol).toFinset, cost ((tally rows).lots sym) := by
  refine fifo_conserves ⟨by decide +kernel, ?_, by decide +kernel⟩
  simp only [List.forall_mem_cons]
  exact ⟨⟨10 ^ 12, by norm_num⟩, ⟨5 * 10 ^ 11, by norm_num⟩, ⟨125 * 10 ^ 10, by norm_num⟩,
    List.forall_mem_nil _⟩

end QuantTrader.Performance
