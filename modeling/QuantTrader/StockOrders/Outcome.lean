import QuantTrader.Kis.Trace
import QuantTrader.StockOrders.Executor

/-! # The recorded outcome and the broker

`_execute` of one claimed order against the broker. What it records is the whole
story, and a rejection means that nothing was accepted, exactly when the moves
of the broker are conclusive: the code takes every failed POST for a refusal,
every failed cancel for a success and every domestic order for filled.
-/

namespace QuantTrader.StockOrders

open Kis

open Ledger (Side)

/-- The price calls of `_resolve`; only the overseas one answers with an exchange. -/
def quote (market : Market) (side : Side) (b : Broker) :
    Except String (Option ℚ × Option String) × Broker :=
  match market, b.priceAndExchange side with
  | .us, answer => answer
  | .kr, (answer, b) => (answer.map fun a => (a.1, none), b)

/-- `KIS_CONFIRM_WINDOW_SEC`. -/
def confirmWindow : ℤ := 90

/-- The default of `max_attempts`. -/
def maxAttempts : ℤ := 3

/-- `_execute`: what is recorded for an order, and the broker then. -/
def execute (row : Row) (close : Except String (Option ℚ)) (b : Broker) :
    (Verdict × Detail) × Broker :=
  match quote row.market row.side b with
  | (answer, b) =>
    match resolve row.size answer close with
    | .error e => (failure e, b)
    | .ok (q, ref, exch) =>
      match placeAndChase row.market row.side q ref exch maxAttempts confirmWindow b with
      | (r, b) => (recordOf q ref r, b)

/-- The record comes from a chase that was `REJECTED`. -/
def Rejected (d : Detail) : Prop := ∃ o, d.outcome = some o ∧ o.result.status = .rejected

/-- Nothing placed for the order is live at the broker, and a rejection is one. -/
def Sound (moves : ℕ → Move) (record : (Verdict × Detail) × Broker) : Prop :=
  record.2.live = 0 ∧ (Rejected record.1.2 → NoneAccepted moves record.2.log)

theorem resolve_pos {size : Size} {answer : Except String (Option ℚ × Option String)}
    {close : Except String (Option ℚ)} {q : ℤ} {ref : Option ℚ} {exch : Option String}
    (h : resolve size answer close = .ok (q, ref, exch)) : 0 < q := by
  unfold resolve at h
  obtain ⟨quoted, -, h⟩ := Transition.bind_ok_iff.mp h
  obtain ⟨ref₁, -, h⟩ := Transition.bind_ok_iff.mp h
  obtain ⟨q₁, hq, h⟩ := Transition.bind_ok_iff.mp h
  obtain ⟨rfl, -⟩ : q₁ = q ∧ _ := by simpa [pure, Except.pure] using h
  unfold resolvedQty at hq
  cases size with
  | qty n pos =>
    obtain rfl := Except.ok.inj hq
    exact_mod_cast pos
  | amount x pos =>
    simp only at hq
    split at hq
    · cases hq
    · split_ifs at hq with hlt
      rw [← Except.ok.inj hq]
      omega

theorem quote_spec {market : Market} {side : Side} {b b' : Broker}
    {answer : Except String (Option ℚ × Option String)} (h : quote market side b = (answer, b')) :
    Quiet side b b' [.quote] ∧ Passive b b' [.quote] := by
  unfold quote at h
  rcases hq : b.priceAndExchange side with ⟨a, b₁⟩
  obtain rfl : b₁ = b' := by
    cases market <;> simp only [hq] at h <;> exact (Prod.mk.inj h).2
  exact ⟨priceAndExchange_spec hq, passive_priceAndExchange hq⟩

/-- What a record says of a rejection is the status of its chase. -/
theorem rejected_recordOf {q : ℤ} {ref : Option ℚ} {r : Except String Result}
    (h : Rejected (recordOf q ref r).2) : ∃ res, r = .ok res ∧ res.status = .rejected := by
  obtain ⟨o, ho, hstatus⟩ := h
  cases r with
  | error e => cases ho
  | ok res =>
    refine ⟨res, rfl, ?_⟩
    rw [← hstatus]
    unfold recordOf at ho
    dsimp only at ho
    split_ifs at ho <;> rw [← Option.some.inj ho]

/-- With a holding in whole shares, the record of an order tells the truth exactly when the broker's
moves are conclusive. -/
theorem sound_iff_conclusive (row : Row) (close : Except String (Option ℚ)) (moves : ℕ → Move)
    (held : ℤ) :
    Sound moves (execute row close (.opening moves held)) ↔
      Conclusive moves row.market (execute row close (.opening moves held)).2.log := by
  unfold execute
  rcases hquote : quote row.market row.side (.opening moves held) with ⟨answer, b⟩
  obtain ⟨hq, hp⟩ := quote_spec hquote
  have hno : ∀ e ∈ [Event.quote], ¬ e.IsOrder :=
    not_isOrder_of_quote fun e he => List.mem_singleton.mp he
  have hc := (calm_opening moves held).passive hp
  dsimp only
  cases hres : resolve row.size answer close with
  | error e =>
    obtain ⟨-, hlive, hlog⟩ := hq.of_opening hno
    exact (ends_of_no_order hc hlive hlog).sound_iff
  | ok resolved =>
    obtain ⟨q, ref, exch⟩ := resolved
    dsimp only
    rcases hchase : placeAndChase row.market row.side q ref exch maxAttempts confirmWindow b with
      ⟨r, b'⟩
    exact ((placeAndChase_ends (resolve_pos hres) hq hno hc hchase).imp
      rejected_recordOf).sound_iff

/-! ## Orders that outlive their record -/

section Demo

theorem ten_shares : 0 < 10 := by decide

/-- A claimed order for ten shares. -/
def demoOrder (market : Market) : Row :=
  ⟨1, "acct", market, "AAPL", .buy, .qty 10 ten_shares, 0, .placed, none, 0⟩

/-- A broker that fills nothing. At one call its read raises, and a POST times out that is carried
out or not. -/
def demoMoves (raisedAt : ℕ) (carriedOut : Bool) : ℕ → Move := fun n =>
  { fill := 0
    raised := if n = raisedAt then some "ReadTimeout" else none
    posts := if n = raisedAt then PostRetry.timedOutPosts carriedOut
      else PostRetry.acknowledgedPosts "1"
    price := some 100
    exchange := some "NASD" }

/-- The record of an order for such a broker. -/
def ended (market : Market) (raisedAt : ℕ) (carriedOut : Bool) : (Verdict × Detail) × Broker :=
  execute (demoOrder market) (.ok none) (.opening (demoMoves raisedAt carriedOut) (0 : ℤ))

/-- A POST that times out is accepted, and the order is recorded as rejected; a cancel fails, and
so does nothing at all for a domestic order: each leaves ten shares live behind a `FAILED`. -/
theorem order_outlives_record :
    ((ended .us 2 true).1.1 = .failed ∧
      (ended .us 2 true).1.2.outcome.map (·.result.status) = some .rejected ∧
      (ended .us 2 true).2.live = 10) ∧
    ((ended .us 15 false).1.1 = .failed ∧ (ended .us 15 false).2.live = 10) ∧
    ((ended .kr 99 false).1.1 = .failed ∧ (ended .kr 99 false).2.live = 10) ∧
    ¬ ∀ (row : Row) (close : Except String (Option ℚ)) (moves : ℕ → Move) (held : ℤ),
      Sound moves (execute row close (.opening moves held)) := by
  have hghost : (ended .us 2 true).2.live = 10 := by decide +kernel
  refine ⟨⟨by decide +kernel, by decide +kernel, hghost⟩, by decide +kernel, by decide +kernel, ?_⟩
  intro h
  have hs : (ended .us 2 true).2.live = 0 := (h (demoOrder .us) (.ok none) (demoMoves 2 true) 0).1
  rw [hghost] at hs
  cases hs

end Demo

end QuantTrader.StockOrders
