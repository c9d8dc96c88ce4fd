import Mathlib.Algebra.Order.Ring.Rat
import Mathlib.Data.Rat.Floor
import Mathlib.Logic.Function.Basic
import QuantTrader.RateLimit.Spacing
import QuantTrader.Transition.System

/-! # The token bucket of the API clients

Threads acquire tokens from a shared bucket. One turn of the loop reads the clock,
refills the bucket and either takes the tokens or finds how long to sleep, all under
the lock; sleeping happens outside it and may last any time.
-/

namespace QuantTrader.RateLimit

open Transition

/-- `TokenBucket`: the tokens as of the last reading of the clock. -/
structure TokenBucket where
  rate : ℚ
  capacity : ℚ
  tokens : ℚ
  last : ℚ
  deriving DecidableEq

namespace TokenBucket

/-- `TokenBucket.__init__`, the clock at `now`. -/
def init (rate : ℚ) (capacity : Option ℚ) (now : ℚ) : TokenBucket where
  rate := rate
  capacity := capacity.getD 1
  tokens := capacity.getD 1
  last := now

/-- The tokens at `now`, the time since the last reading credited. -/
def refill (b : TokenBucket) (now : ℚ) : TokenBucket :=
  { b with tokens := min b.capacity (b.tokens + (now - b.last) * b.rate), last := now }

/-- The locked section of `acquire(n)`: the seconds to sleep, or `none` when `n` tokens
were there and are taken. -/
def turn (b : TokenBucket) (n now : ℚ) : TokenBucket × Option ℚ :=
  let b := b.refill now
  if n ≤ b.tokens then ({ b with tokens := b.tokens - n }, none)
  else (b, some ((n - b.tokens) / b.rate))

variable {b : TokenBucket} (n now : ℚ)

theorem refill_tokens_le (b : TokenBucket) :
    (b.refill now).tokens ≤ b.tokens + (now - b.last) * b.rate :=
  min_le_right _ _

theorem refill_tokens_le_capacity (b : TokenBucket) : (b.refill now).tokens ≤ b.capacity :=
  min_le_left _ _

/-- What one turn does: it takes the tokens that are there, or refills only and sleeps. -/
theorem turn_cases (b : TokenBucket) :
    (n ≤ (b.refill now).tokens ∧
      b.turn n now = ({ b.refill now with tokens := (b.refill now).tokens - n }, none)) ∨
    ((b.refill now).tokens < n ∧
      b.turn n now = (b.refill now, some ((n - (b.refill now).tokens) / b.rate))) := by
  unfold turn
  rcases le_or_gt n (b.refill now).tokens with h | h
  · exact .inl ⟨h, if_pos h⟩
  · exact .inr ⟨h, if_neg h.not_ge⟩

end TokenBucket

/-- Where a thread is: outside `acquire`, at the lock, or asleep between two turns. -/
inductive Thread where
  | outside
  | atLock (n : ℚ)
  | asleep (n wait : ℚ)
  deriving DecidableEq

def Thread.isAtLock : Thread → Bool
  | .atLock _ => true
  | _ => false

def Thread.isAsleep : Thread → Bool
  | .asleep _ _ => true
  | _ => false

/-- The shared bucket, the clock, every thread, and the grants so far with their times. -/
structure World (τ : Type*) where
  bucket : TokenBucket
  clock : ℚ
  threads : τ → Thread
  grants : List (τ × ℚ)

/-- What can happen: a thread calls `acquire(n)`, takes its turn at a reading of the
clock, or ends its sleep. -/
inductive Event (τ : Type*) where
  | call (t : τ) (n : ℚ)
  | turn (t : τ) (now : ℚ)
  | wake (t : τ)

variable {τ : Type*} [DecidableEq τ]

namespace World

/-- The bucket just made, every thread outside. -/
def start (rate : ℚ) (capacity : Option ℚ) (now : ℚ) : World τ where
  bucket := .init rate capacity now
  clock := now
  threads _ := .outside
  grants := []

/-- The world when a thread has got its tokens. -/
def granted (w : World τ) (b : TokenBucket) (t : τ) (now : ℚ) : World τ where
  bucket := b
  clock := now
  threads := Function.update w.threads t .outside
  grants := w.grants ++ [(t, now)]

/-- The world when a thread has to sleep. -/
def slept (w : World τ) (b : TokenBucket) (t : τ) (n now wait : ℚ) : World τ :=
  { w with bucket := b, clock := now, threads := Function.update w.threads t (.asleep n wait) }

/-- The turn of a thread that asks for `n`: granted it leaves, else it sleeps. -/
def turn (w : World τ) (t : τ) (n now : ℚ) : World τ :=
  let (b, wait) := w.bucket.turn n now
  wait.elim (w.granted b t now) (w.slept b t n now)

/-- A thread calls only from outside, takes its turn only at the lock and at a reading no
earlier than those before, and may wake at any time. -/
def Enabled (w : World τ) : Event τ → Prop
  | .call t _ => w.threads t = .outside
  | .turn t now => (w.threads t).isAtLock ∧ w.clock ≤ now
  | .wake t => (w.threads t).isAsleep

instance (w : World τ) : ∀ e, Decidable (w.Enabled e)
  | .call t _ => inferInstanceAs (Decidable (w.threads t = .outside))
  | .turn t now => inferInstanceAs (Decidable ((w.threads t).isAtLock ∧ w.clock ≤ now))
  | .wake t => inferInstanceAs (Decidable ((w.threads t).isAsleep))

def next (w : World τ) : Event τ → World τ
  | .call t n => { w with threads := Function.update w.threads t (.atLock n) }
  | .turn t now =>
    match w.threads t with
    | .atLock n => w.turn t n now
    | _ => w
  | .wake t =>
    match w.threads t with
    | .asleep n _ => { w with threads := Function.update w.threads t (.atLock n) }
    | _ => w

/-- The times of the grants, oldest first. -/
def times (w : World τ) : List ℚ := w.grants.map Prod.snd

variable {w : World τ} {b : TokenBucket} {t : τ} {n now wait : ℚ}

@[simp] theorem times_granted : (w.granted b t now).times = w.times ++ [now] := by
  simp [times, granted]

theorem turn_granted (h : w.bucket.turn n now = (b, none)) :
    w.turn t n now = w.granted b t now := by
  simp only [turn, h, Option.elim]

theorem turn_slept (h : w.bucket.turn n now = (b, some wait)) :
    w.turn t n now = w.slept b t n now wait := by
  simp only [turn, h, Option.elim]

end World

/-- The bucket shared by threads in any order. -/
def system (τ : Type*) [DecidableEq τ] : System (World τ) (Event τ) where
  Enabled := World.Enabled
  next := World.next

instance (w : World τ) (e : Event τ) : Decidable ((system τ).Enabled w e) :=
  inferInstanceAs (Decidable (w.Enabled e))

/-- Every call is `acquire(1)`. -/
def CallsForOne (_ : World τ) : Event τ → Prop
  | .call _ n => n = 1
  | _ => True

instance (w : World τ) : ∀ e, Decidable (CallsForOne w e)
  | .call _ n => inferInstanceAs (Decidable (n = 1))
  | .turn _ _ => isTrue trivial
  | .wake _ => isTrue trivial

/-- The amount a thread inside `acquire` asks for. -/
def Thread.amount : Thread → Option ℚ
  | .outside => none
  | .atLock n => some n
  | .asleep n _ => some n

/-- The bucket of rate `r` and capacity one as its threads leave it: what it holds was
refilled since the last grant, and the grants are `1 / r` apart. -/
structure Paced (r : ℚ) (w : World τ) : Prop where
  rate : w.bucket.rate = r
  capacity : w.bucket.capacity = 1
  last : w.bucket.last = w.clock
  amount : ∀ t, ∀ n ∈ (w.threads t).amount, n = 1
  since : ∀ g ∈ w.times.getLast?, w.bucket.tokens ≤ (w.clock - g) * r
  spaced : Spaced (1 / r) w.times

variable {r : ℚ} {w : World τ} {t : τ} {n now : ℚ}

theorem outside_one : ∀ n ∈ Thread.outside.amount, n = 1 := by rintro n ⟨⟩

theorem asleep_one (wait : ℚ) : ∀ n ∈ (Thread.asleep 1 wait).amount, n = 1 := by rintro n ⟨⟩; rfl

omit [DecidableEq τ] in
theorem Paced.start {capacity : Option ℚ} (hc : capacity.getD 1 = 1) :
    Paced r (World.start (τ := τ) r capacity now) where
  rate := rfl
  capacity := hc
  last := rfl
  amount := by rintro t n ⟨⟩
  since := by rintro g ⟨⟩
  spaced := Spaced.nil

theorem Paced.move (h : Paced r w) {th : Thread} (hth : ∀ n ∈ th.amount, n = 1) :
    Paced r { w with threads := Function.update w.threads t th } where
  rate := h.rate
  capacity := h.capacity
  last := h.last
  amount u n hn := by
    rcases eq_or_ne u t with rfl | hut
    · exact hth n (by simpa using hn)
    · exact h.amount u n (by simpa [hut] using hn)
  since := h.since
  spaced := h.spaced

omit [DecidableEq τ] in
/-- After a refill at `now` the bucket holds no more than the time since the last grant. -/
theorem Paced.refill_since (h : Paced r w) {g : ℚ} (hg : g ∈ w.times.getLast?) :
    (w.bucket.refill now).tokens ≤ (now - g) * r := by
  have hsince := h.since g hg
  have hrefill := w.bucket.refill_tokens_le now
  rw [h.last, h.rate] at hrefill
  linarith

theorem Paced.turn (hr : 0 < r) (h : Paced r w) : Paced r (w.turn t 1 now) := by
  rcases w.bucket.turn_cases 1 now with ⟨hle, heq⟩ | ⟨-, heq⟩
  · have hcap := w.bucket.refill_tokens_le_capacity now
    rw [h.capacity] at hcap
    rw [World.turn_granted heq]
    refine ⟨h.rate, h.capacity, rfl, (h.move outside_one).amount, ?_, ?_⟩
    · rintro g hg
      rw [World.times_granted, List.getLast?_concat] at hg
      obtain rfl := Option.some.inj hg
      simp only [World.granted, sub_self, zero_mul]
      linarith
    · rw [World.times_granted]
      refine h.spaced.snoc ?_
      rintro g hg
      have hone : 1 ≤ (now - g) * r := hle.trans (h.refill_since hg)
      have := (div_le_iff₀ hr).mpr hone
      linarith
  · rw [World.turn_slept heq]
    exact ⟨h.rate, h.capacity, rfl, (h.move (asleep_one _)).amount,
      fun g hg => h.refill_since hg, h.spaced⟩

theorem Paced.next (hr : 0 < r) (h : Paced r w) {e : Event τ} (he : w.Enabled e)
    (hone : CallsForOne w e) : Paced r (w.next e) := by
  cases e with
  | call t n =>
    obtain rfl : n = 1 := hone
    exact h.move (by rintro n ⟨⟩; rfl)
  | turn t now =>
    cases ht : w.threads t with
    | atLock n =>
      obtain rfl : n = 1 := h.amount t n (by rw [ht]; rfl)
      simp only [World.next, ht]
      exact h.turn hr
    | _ => simp only [World.next, ht]; exact h
  | wake t =>
    cases ht : w.threads t with
    | asleep n wait =>
      simp only [World.next, ht]
      exact h.move fun m hm => h.amount t m (by rw [ht]; exact hm)
    | _ => simp only [World.next, ht]; exact h

/-- Two consecutive grants of a bucket of capacity one are at least `1 / r` apart, and a
half-open window of length `T` holds at most `r * T` of them, rounded up. -/
theorem grants_spaced {r : ℚ} (hr : 0 < r) {capacity : Option ℚ} (hc : capacity.getD 1 = 1)
    {now : ℚ} {w : World τ}
    (hw : ((system τ).restrict CallsForOne).Reaches (World.start r capacity now) w) :
    Spaced (1 / r) w.times ∧ ∀ a T, (window a T w.times).length ≤ ⌈r * T⌉₊ := by
  have h : Paced r w :=
    hw.invariant (.start hc) fun w e hp (he : w.Enabled e ∧ CallsForOne w e) =>
      hp.next hr he.1 he.2
  exact ⟨h.spaced, fun a T => h.spaced.length_window_le hr⟩

/-- Two threads at a bucket of two a second: the second sleeps, wakes too early, sleeps
again and is granted half a second after the first. -/
def twoThreads : List (Event Bool) :=
  [.call true 1, .call false 1, .turn true 3, .turn false 3, .wake false, .turn false (13 / 4),
    .wake false, .turn false (7 / 2)]

theorem grants_spaced_twoThreads :
    let w := (system Bool).run (World.start 2 none 0) twoThreads
    w.times = [3, 7 / 2] ∧ Spaced (1 / 2) w.times ∧
      ∀ a T, (window a T w.times).length ≤ ⌈2 * T⌉₊ :=
  have ha : ((system Bool).restrict CallsForOne).Allowed (World.start 2 none 0) twoThreads := by
    decide +kernel
  ⟨by decide +kernel, grants_spaced (by decide +kernel) rfl (System.Reaches.start.run ha)⟩

end QuantTrader.RateLimit
