import QuantTrader.Decimal.Rounding
import QuantTrader.Kis.PostRetry
import QuantTrader.Ledger.Tables

/-! # Chasing an order

`place_and_chase` against a broker whose moves are arbitrary: before each
answer some shares of the live order fill, each read may raise, and orders and
cancels go through `post_order`. The broker is seen through one symbol. Its
holding is an exact number; the difference of two of them is that of floats.
-/

namespace QuantTrader.Kis

open Ledger (Side)

open PostRetry (Posts)

/-- What Python computes as the difference of two holdings. Reading them as floats, the subtraction
and the rounding of its result keep the order. -/
class FloatDiff where
  sub : ℚ → ℚ → ℚ
  mono : ∀ {a b c d : ℚ}, a ≤ b → d ≤ c → sub a c ≤ sub b d

/-- Whole shares, of which floats hold the difference as it is. -/
instance wholeShares : FloatDiff := ⟨fun a c => a - c, fun hab hdc => sub_le_sub hab hdc⟩

inductive Market | kr | us
  deriving DecidableEq, Repr

/-- The calls the broker has seen; an order carries the number it was answered with. -/
inductive Event
  | quote
  | held (ok : Bool)
  | order (qty : ℤ) (odno : Option String)
  | cancel (odno : Option String) (ok : Bool)
  deriving DecidableEq, Repr

/-- What the broker does at one call: the shares that fill before it answers, the exception that a
read raises if any, what becomes of the POSTs of an order or a cancel, and the price and exchange it
answers with. -/
structure Move where
  fill : ℕ
  raised : Option String
  posts : Posts
  price : Option ℚ
  exchange : Option String

/-- The broker: its coming moves, the holding, the open remainder and the executed shares of the
orders of this call. -/
structure Broker where
  moves : ℕ → Move
  clock : ℕ
  held : ℚ
  live : ℕ
  executed : ℕ
  log : List Event

def Broker.opening (moves : ℕ → Move) (held : ℚ) : Broker := ⟨moves, 0, held, 0, 0, []⟩

namespace Broker

variable (side : Side) (b : Broker)

/-- The shares that fill before the next answer. -/
def filling : ℕ := min (b.moves b.clock).fill b.live

def advance : Broker :=
  { b with
    clock := b.clock + 1
    live := b.live - b.filling
    executed := b.executed + b.filling
    held := match side with
      | .buy => b.held + b.filling
      | .sell => b.held - b.filling }

def note (e : Event) : Broker := { b with log := b.log ++ [e] }

/-- `_held_qty`. -/
def heldQty : Except String ℚ × Broker :=
  let now := b.advance side
  match (b.moves b.clock).raised with
  | some e => (.error e, now.note (.held false))
  | none => (.ok now.held, now.note (.held true))

/-- `price_and_exchange`. -/
def priceAndExchange : Except String (Option ℚ × Option String) × Broker :=
  let m := b.moves b.clock
  match m.raised with
  | some e => (.error e, (b.advance side).note .quote)
  | none => (.ok (m.price, m.exchange), (b.advance side).note .quote)

/-- `place_domestic_order` and `place_overseas_order`, behind their `_validate`, and the number in
what they return. -/
def placeOrder (qty : ℤ) : Except String (Option String) × Broker :=
  if qty ≤ 0 then (.error ("ValueError: qty는 양수여야 함 — got " ++ toString qty), b)
  else
    let posts := (b.moves b.clock).posts
    let now := b.advance side
    (posts.odno, { now with live := now.live + posts.taken * qty.toNat }.note
      (.order qty posts.odno.toOption.join))

/-- `cancel_overseas_order`. -/
def cancelOrder (odno : Option String) : Except String Unit × Broker :=
  let posts := (b.moves b.clock).posts
  let now := b.advance side
  let now := { now with live := if posts.taken = 0 then now.live else 0 }
  match posts.post.1 with
  | .error e => (.error e.text, now.note (.cancel odno false))
  | .ok _ => (.ok (), now.note (.cancel odno true))

end Broker

/-! ## The chase -/

/-- An entry of `attempts`. -/
structure Attempt where
  qty : ℤ
  limit : Option ℚ
  exch : Option String
  odno : Option String
  error : Option String
  filledTotal : Option ℤ
  cancel : Option String
  recheck : Option String
  deriving DecidableEq, Repr

inductive Status | filled | partlyFilled | unfilled | rejected
  deriving DecidableEq, Repr

structure Result where
  status : Status
  requestedQty : ℤ
  filledQty : ℤ
  attempts : List Attempt
  deriving DecidableEq, Repr

/-- What stays fixed during the rounds of a call. -/
structure Chase where
  market : Market
  side : Side
  qty : ℤ
  px0 : Option ℚ
  exchange : Option String
  base : ℚ
  window : ℕ

/-- `_BUY_BUFFERS` and `_SELL_BUFFERS`. -/
def buffers : Side → List ℚ
  | .buy => [102 / 100, 103 / 100, 104 / 100]
  | .sell => [98 / 100, 97 / 100, 96 / 100]

/-- `_POLL_DELAYS`. -/
def pollDelays : List ℕ := [2, 3, 4, 6, 8, 10]

def pollDelay (i : ℕ) : ℕ := pollDelays.getD (min i (pollDelays.length - 1)) 0

variable [FloatDiff]

/-- `_filled_since`: the shares filled since the base reading, cut to an integer. -/
def filledSince (side : Side) (base : ℚ) (b : Broker) : Except String ℤ × Broker :=
  match b.heldQty side with
  | (.error e, b) => (.error e, b)
  | (.ok now, b) =>
    let filled : ℚ := match side with
      | .buy => FloatDiff.sub now base
      | .sell => FloatDiff.sub base now
    (.ok ⌊max 0 filled⌋, b)

/-- The loop of `_poll_fill`, which no longer runs once `window` seconds were waited. -/
def pollLoop (side : Side) (base : ℚ) (want : ℤ) (window : ℕ) :
    ℕ → ℕ → ℕ → ℤ → Broker → ℤ × Broker
  | 0, _, _, filled, b => (filled, b)
  | fuel + 1, waited, i, filled, b =>
    if waited < window then
      match filledSince side base b with
      | (.error _, b) => pollLoop side base want window fuel (waited + pollDelay i) (i + 1) filled b
      | (.ok now, b) =>
        if want ≤ now then (now, b)
        else pollLoop side base want window fuel (waited + pollDelay i) (i + 1) now b
    else (filled, b)

/-- `_poll_fill`. -/
def pollFill (p : Chase) (b : Broker) : ℤ × Broker :=
  pollLoop p.side p.base p.qty p.window p.window 0 0 0 b

/-- A price or a text that Python takes for missing. -/
def priced (px : Option ℚ) : Option ℚ := px.filter (· ≠ 0)

def named (exchange : Option String) : Option String := exchange.filter (· ≠ "")

namespace Chase

variable (p : Chase)

/-- The price of a round: the first one may use the price given. -/
def price (n : ℕ) (b : Broker) : Except String (Option ℚ) × Broker :=
  if n = 0 ∧ (priced p.px0).isSome then (.ok p.px0, b)
  else
    match b.priceAndExchange p.side with
    | (.error e, b) => (.error e, b)
    | (.ok (px, _), b) => (.ok (priced px), b)

/-- The limit price of a round, at two decimals. -/
def limit (n : ℕ) (px : ℚ) : ℚ :=
  Nearest.halfEven.toGrid (1 / 100)
    (px * (buffers p.side).getD (min n ((buffers p.side).length - 1)) 0)

/-- The order of a round; an attempt with an error ends the chase. -/
def submit (n : ℕ) (remaining : ℤ) (b : Broker) : Attempt × Broker :=
  let att : Attempt := ⟨remaining, none, none, none, none, none, none, none⟩
  match p.market with
  | .kr =>
    match b.placeOrder p.side remaining with
    | (.error e, b) => ({ att with error := some e }, b)
    | (.ok odno, b) => ({ att with odno }, b)
  | .us =>
    match p.price n b with
    | (.error e, b) => ({ att with error := some e }, b)
    | (.ok none, b) => ({ att with error := some "시세/거래소 미확인" }, b)
    | (.ok (some px), b) =>
      let att :=
        { att with limit := some (p.limit n px), exch := some ((named p.exchange).getD "NASD") }
      match b.placeOrder p.side remaining with
      | (.error e, b) => ({ att with error := some e }, b)
      | (.ok odno, b) => ({ att with odno }, b)

omit [FloatDiff] in
theorem submit_cases {p : Chase} {att : Attempt} {n : ℕ} {remaining : ℤ} {b b' : Broker}
    (h : p.submit n remaining b = (att, b')) :
    ∃ b₁, (b₁ = b ∨ ∃ r, p.price n b = (r, b₁)) ∧ ((att.error.isSome ∧ b' = b₁) ∨
      ∃ r, b₁.placeOrder p.side remaining = (r, b') ∧
        ((∃ e, r = .error e ∧ att.error = some e) ∨ r = .ok att.odno ∧ att.error = none)) := by
  unfold submit at h
  cases hm : p.market with
  | kr =>
    simp only [hm] at h
    refine ⟨b, .inl rfl, .inr ?_⟩
    rcases ho : b.placeOrder p.side remaining with ⟨e | odno, b₁⟩
    all_goals
      simp only [ho] at h
      obtain ⟨rfl, rfl⟩ := Prod.mk.inj h
    · exact ⟨_, rfl, .inl ⟨e, rfl, rfl⟩⟩
    · exact ⟨_, rfl, .inr ⟨rfl, rfl⟩⟩
  | us =>
    simp only [hm] at h
    rcases hp : p.price n b with ⟨e | _ | px, b₁⟩
    all_goals
      refine ⟨b₁, .inr ⟨_, rfl⟩, ?_⟩
      simp only [hp] at h
    · obtain ⟨rfl, rfl⟩ := Prod.mk.inj h
      exact .inl ⟨rfl, rfl⟩
    · obtain ⟨rfl, rfl⟩ := Prod.mk.inj h
      exact .inl ⟨rfl, rfl⟩
    · rcases ho : b₁.placeOrder p.side remaining with ⟨e | odno, b₂⟩
      all_goals
        simp only [ho] at h
        obtain ⟨rfl, rfl⟩ := Prod.mk.inj h
      · exact .inr ⟨_, rfl, .inl ⟨e, rfl, rfl⟩⟩
      · exact .inr ⟨_, rfl, .inr ⟨rfl, rfl⟩⟩

/-- The rest of a round, after an accepted order: whether to go on, what remains, the attempt. -/
def follow (att : Attempt) (b : Broker) : (Bool × ℤ × Attempt) × Broker :=
  let (filledTotal, b) := pollFill p b
  let att := { att with filledTotal := some filledTotal }
  let remaining := p.qty - filledTotal
  if remaining ≤ 0 ∨ p.market = .kr then ((false, remaining, att), b)
  else
    match b.cancelOrder p.side att.odno with
    | (.ok (), b) =>
      let att := { att with cancel := some "ok" }
      match filledSince p.side p.base b with
      | (.error e, b) => ((false, remaining, { att with recheck := some e }), b)
      | (.ok filled, b) => ((decide (0 < p.qty - filled), p.qty - filled, att), b)
    | (.error e, b) =>
      let att := { att with cancel := some e }
      match filledSince p.side p.base b with
      | (.error e, b) => ((false, remaining, { att with recheck := some e }), b)
      | (.ok filled, b) => ((false, p.qty - filled, att), b)

/-- The rest of a round ends on what was polled, or it cancels and reads once more; it goes on
only if both succeeded and shares are missing. -/
theorem follow_cases {p : Chase} {att att' : Attempt} {more : Bool} {remaining : ℤ} {b b' : Broker}
    (h : p.follow att b = ((more, remaining, att'), b')) :
    att'.error = att.error ∧ ∃ filledTotal b₁, pollFill p b = (filledTotal, b₁) ∧
      (((p.qty - filledTotal ≤ 0 ∨ p.market = .kr) ∧ more = false ∧
          remaining = p.qty - filledTotal ∧ b' = b₁) ∨
        ¬ (p.qty - filledTotal ≤ 0 ∨ p.market = .kr) ∧ ∃ cancelled b₂ reread,
          b₁.cancelOrder p.side att.odno = (cancelled, b₂) ∧
          filledSince p.side p.base b₂ = (reread, b') ∧
          ((∃ e, reread = .error e ∧ more = false ∧ remaining = p.qty - filledTotal) ∨
            ∃ f, reread = .ok f ∧ remaining = p.qty - f ∧
              more = (cancelled.isOk && decide (0 < p.qty - f)))) := by
  unfold follow at h
  rcases hpoll : pollFill p b with ⟨filledTotal, b₁⟩
  simp only [hpoll] at h
  split_ifs at h with hstop
  · obtain ⟨he, rfl⟩ := Prod.mk.inj h
    simp only [Prod.mk.injEq] at he
    obtain ⟨rfl, rfl, rfl⟩ := he
    exact ⟨rfl, filledTotal, b₁, rfl, .inl ⟨hstop, rfl, rfl, rfl⟩⟩
  · rcases hc : b₁.cancelOrder p.side att.odno with ⟨cancelled, b₂⟩
    rcases hs : filledSince p.side p.base b₂ with ⟨reread, b₃⟩
    cases cancelled <;> cases reread <;> simp only [hc, hs, Prod.mk.injEq] at h <;>
      obtain ⟨⟨rfl, rfl, rfl⟩, rfl⟩ := h
    · exact ⟨rfl, _, b₁, rfl, .inr ⟨hstop, _, b₂, _, hc, hs, .inl ⟨_, rfl, rfl, rfl⟩⟩⟩
    · exact ⟨rfl, _, b₁, rfl, .inr ⟨hstop, _, b₂, _, hc, hs, .inr ⟨_, rfl, rfl, rfl⟩⟩⟩
    · exact ⟨rfl, _, b₁, rfl, .inr ⟨hstop, _, b₂, _, hc, hs, .inl ⟨_, rfl, rfl, rfl⟩⟩⟩
    · exact ⟨rfl, _, b₁, rfl, .inr ⟨hstop, _, b₂, _, hc, hs, .inr ⟨_, rfl, rfl, rfl⟩⟩⟩

/-- The rounds that are left, with the attempts so far. -/
def rounds : ℕ → ℕ → ℤ → List Attempt → Broker → (ℤ × List Attempt) × Broker
  | 0, _, remaining, attempts, b => ((remaining, attempts), b)
  | k + 1, n, remaining, attempts, b =>
    match p.submit n remaining b with
    | (att, b) =>
      if att.error.isSome then ((remaining, attempts ++ [att]), b)
      else
        match p.follow att b with
        | ((true, remaining, att), b) => rounds k (n + 1) remaining (attempts ++ [att]) b
        | ((false, remaining, att), b) => ((remaining, attempts ++ [att]), b)

end Chase

/-- The status of a call that leaves `remaining` shares. -/
def statusOf (qty remaining : ℤ) (attempts : List Attempt) : Status :=
  if remaining ≤ 0 then .filled
  else if 0 < qty - remaining then .partlyFilled
  else if (attempts.head?.bind (·.error)).isSome then .rejected
  else .unfilled

/-- The price and the exchange the call starts with; an exchange that is given is not looked up. -/
def openingQuote (market : Market) (side : Side) (refPrice : Option ℚ) (exchange : Option String)
    (b : Broker) : Except String (Option ℚ × Option String) × Broker :=
  if market = .us ∧ named exchange = none then b.priceAndExchange side
  else (.ok (refPrice, exchange), b)

def roundCount (maxAttempts : ℤ) : Market → ℕ
  | .us => maxAttempts.toNat
  | .kr => 1

/-- `place_and_chase`; an exception before the first order propagates. -/
def placeAndChase (market : Market) (side : Side) (qty : ℤ) (refPrice : Option ℚ)
    (exchange : Option String) (maxAttempts confirmWindow : ℤ) (b : Broker) :
    Except String Result × Broker :=
  match openingQuote market side refPrice exchange b with
  | (.error e, b) => (.error e, b)
  | (.ok (px0, exchange), b) =>
    match b.heldQty side with
    | (.error e, b) => (.error e, b)
    | (.ok base, b) =>
      let p : Chase := ⟨market, side, qty, px0, exchange, base, confirmWindow.toNat⟩
      match p.rounds (roundCount maxAttempts market) 0 qty [] b with
      | ((remaining, attempts), b) =>
        (.ok ⟨statusOf qty remaining attempts, qty, qty - remaining, attempts⟩, b)

end QuantTrader.Kis
