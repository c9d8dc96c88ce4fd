import Mathlib.Tactic.LinearCombination
import QuantTrader.Kis.Chase

/-! # No over-fill

The executed shares and the open remainder of all orders of a call never exceed
the requested quantity. A holding in whole shares tells the executed ones, so what
remains is known exactly after a successful cancel, and only then is the next
order placed; `post_order` places it once at most.
-/

namespace QuantTrader.Kis

open Ledger (Side)

variable {side : Side} {base : ℚ} {b b' : Broker} {qty remaining : ℤ} {odno : Option String}
  {log es : List Event} {p : Chase} {att att' : Attempt}

/-! ## What a log shows -/

def Event.IsOrder : Event → Prop
  | .order _ _ => True
  | _ => False

/-- The log has no order, or its last order was cancelled and the holding read again. -/
def Settled (log : List Event) : Prop :=
  (∀ e ∈ log, ¬ e.IsOrder) ∨ ∃ before qty odno polls,
    log = before ++ .order qty odno :: polls ++ [.cancel odno true, .held true] ∧
      ∀ e ∈ polls, ∃ ok, e = .held ok

/-- Every order is placed on a settled log, at most a price is asked in between. -/
def Guarded (log : List Event) : Prop :=
  ∀ before qty odno after, log = before ++ .order qty odno :: after →
    ∃ settled quotes, before = settled ++ quotes ∧ Settled settled ∧ ∀ e ∈ quotes, e = .quote

theorem Guarded.append (h : Guarded log) (hes : ∀ e ∈ es, ¬ e.IsOrder) : Guarded (log ++ es) := by
  intro before qty odno after heq
  rcases List.append_eq_append_iff.mp heq with ⟨mid, -, hmid⟩ | ⟨mid, hmid, hrest⟩
  · exact absurd trivial (hes (.order qty odno) (by rw [hmid]; simp))
  · cases mid with
    | nil => exact absurd trivial (hes (.order qty odno) (by rw [← List.nil_append es, ← hrest]; simp))
    | cons e mid =>
      obtain ⟨rfl, -⟩ := List.cons.inj hrest
      exact h before qty odno mid hmid

theorem Guarded.order (h : Guarded (log ++ es)) (hs : Settled log) (hes : ∀ e ∈ es, e = .quote) :
    Guarded (log ++ es ++ [.order qty odno]) := by
  intro before qty' odno' after heq
  rcases List.append_eq_append_iff.mp heq with ⟨mid, hmid, hrest⟩ | ⟨mid, hmid, hrest⟩
  · cases mid with
    | nil => exact ⟨log, es, by simpa using hmid, hs, hes⟩
    | cons e mid => simp at hrest
  · cases mid with
    | nil => exact ⟨log, es, by simpa using hmid.symm, hs, hes⟩
    | cons e mid =>
      obtain ⟨rfl, -⟩ := List.cons.inj hrest
      exact h before qty' odno' mid hmid

theorem not_isOrder_of_held (h : ∀ e ∈ es, ∃ ok, e = .held ok) : ∀ e ∈ es, ¬ e.IsOrder := by
  intro e he
  obtain ⟨ok, rfl⟩ := h e he
  exact id

theorem not_isOrder_of_quote (h : ∀ e ∈ es, e = .quote) : ∀ e ∈ es, ¬ e.IsOrder := by
  intro e he
  rw [h e he]
  exact id

/-! ## Calls -/

/-- The holding is the base reading moved by the executed shares. -/
def Tracks (side : Side) (base : ℚ) (b : Broker) : Prop :=
  b.held = match side with
    | .buy => base + b.executed
    | .sell => base - b.executed

/-- A call that neither opens nor closes an order. -/
structure Quiet (side : Side) (b b' : Broker) (es : List Event) : Prop where
  tracks : ∀ base, Tracks side base b → Tracks side base b'
  executed : b.executed ≤ b'.executed
  total : b'.executed + b'.live = b.executed + b.live
  log : b'.log = b.log ++ es

theorem Quiet.refl (side : Side) (b : Broker) : Quiet side b b [] :=
  ⟨fun _ h => h, le_rfl, rfl, (List.append_nil _).symm⟩

theorem Quiet.trans {b'' : Broker} {es' : List Event} (h : Quiet side b b' es)
    (h' : Quiet side b' b'' es') : Quiet side b b'' (es ++ es') where
  tracks base ht := h'.tracks base (h.tracks base ht)
  executed := h.executed.trans h'.executed
  total := h'.total.trans h.total
  log := by rw [h'.log, h.log, List.append_assoc]

theorem quiet_advance (side : Side) (b : Broker) : Quiet side b (b.advance side) [] where
  tracks base ht := by
    unfold Tracks at ht ⊢
    cases side with
    | buy =>
      simp only [Broker.advance] at ht ⊢
      push_cast
      linear_combination ht
    | sell =>
      simp only [Broker.advance] at ht ⊢
      push_cast
      linear_combination ht
  executed := by
    simp only [Broker.advance]
    omega
  total := by
    have hle : b.filling ≤ b.live := min_le_right _ _
    simp only [Broker.advance]
    omega
  log := (List.append_nil _).symm

theorem quiet_note (side : Side) (b : Broker) (e : Event) : Quiet side b (b.note e) [e] :=
  ⟨fun _ h => h, le_rfl, rfl, rfl⟩

theorem heldQty_spec {r : Except String ℚ} (h : b.heldQty side = (r, b')) :
    Quiet side b b' [.held r.isOk] ∧ ∀ v, r = .ok v → v = b'.held := by
  unfold Broker.heldQty at h
  cases hm : (b.moves b.clock).raised with
  | some e =>
    simp only [hm] at h
    obtain ⟨rfl, rfl⟩ := Prod.mk.inj h
    exact ⟨(quiet_advance side b).trans (quiet_note side _ _), nofun⟩
  | none =>
    simp only [hm] at h
    obtain ⟨rfl, rfl⟩ := Prod.mk.inj h
    refine ⟨(quiet_advance side b).trans (quiet_note side _ _), ?_⟩
    rintro _ ⟨⟩
    rfl

theorem priceAndExchange_spec {r : Except String (Option ℚ × Option String)}
    (h : b.priceAndExchange side = (r, b')) : Quiet side b b' [.quote] := by
  unfold Broker.priceAndExchange at h
  cases hm : (b.moves b.clock).raised with
  | some e =>
    simp only [hm] at h
    obtain ⟨-, rfl⟩ := Prod.mk.inj h
    exact (quiet_advance side b).trans (quiet_note side _ _)
  | none =>
    simp only [hm] at h
    obtain ⟨-, rfl⟩ := Prod.mk.inj h
    exact (quiet_advance side b).trans (quiet_note side _ _)

section Readings

variable [FloatDiff]

/-- The total that a reading shows when some shares were executed. -/
def seen (side : Side) (base : ℚ) (executed : ℕ) : ℤ :=
  ⌊max 0 (match side with
    | .buy => FloatDiff.sub (base + executed) base
    | .sell => FloatDiff.sub base (base - executed))⌋

theorem seen_nonneg (side : Side) (base : ℚ) (n : ℕ) : 0 ≤ seen side base n :=
  Int.floor_nonneg.mpr (le_max_left 0 _)

theorem seen_mono {m n : ℕ} (h : m ≤ n) : seen side base m ≤ seen side base n := by
  have hle : (m : ℚ) ≤ n := Nat.cast_le.mpr h
  unfold seen
  cases side with
  | buy => exact Int.floor_mono (max_le_max_left 0 (FloatDiff.mono (by linarith) le_rfl))
  | sell => exact Int.floor_mono (max_le_max_left 0 (FloatDiff.mono le_rfl (by linarith)))

theorem filledSince_seen {r : Except String ℤ} (ht : Tracks side base b)
    (h : filledSince side base b = (r, b')) :
    Quiet side b b' [.held r.isOk] ∧ ∀ f, r = .ok f → f = seen side base b'.executed := by
  unfold filledSince at h
  rcases hheld : b.heldQty side with ⟨now | now, b₁⟩
  · simp only [hheld] at h
    obtain ⟨rfl, rfl⟩ := Prod.mk.inj h
    exact ⟨(heldQty_spec hheld).1, nofun⟩
  · simp only [hheld] at h
    obtain ⟨rfl, rfl⟩ := Prod.mk.inj h
    obtain ⟨hq, hnow⟩ := heldQty_spec hheld
    refine ⟨hq, ?_⟩
    rintro f ⟨⟩
    have hheld' := hq.tracks base ht
    rw [hnow now rfl]
    unfold Tracks at hheld'
    unfold seen
    cases side with
    | buy => rw [hheld']
    | sell => rw [hheld']

omit [FloatDiff] in
theorem pollDelay_pos (i : ℕ) : 0 < pollDelay i := by
  have hall : ∀ k < 6, 0 < pollDelays.getD k 0 := by decide
  have hlen : pollDelays.length = 6 := rfl
  exact hall _ (by omega)

/-- The polling stops by itself: more rounds than seconds in the window change nothing. -/
theorem pollLoop_of_le {want filled : ℤ} {window fuel fuel' waited i : ℕ}
    (h : window ≤ waited + fuel) (hle : fuel ≤ fuel') :
    pollLoop side base want window fuel' waited i filled b =
      pollLoop side base want window fuel waited i filled b := by
  induction fuel generalizing fuel' waited i filled b with
  | zero =>
    cases fuel' with
    | zero => rfl
    | succ n =>
      unfold pollLoop
      rw [if_neg (by omega)]
  | succ fuel ih =>
    obtain ⟨n, rfl⟩ : ∃ n, fuel' = n + 1 := ⟨fuel' - 1, by omega⟩
    have hd := pollDelay_pos i
    unfold pollLoop
    split_ifs
    · rcases filledSince side base b with ⟨now | now, b₁⟩
      · exact ih (by omega) (by omega)
      · dsimp only
        split_ifs
        · rfl
        · exact ih (by omega) (by omega)
    · rfl

end Readings

theorem seen_whole (side : Side) (base : ℚ) (n : ℕ) : seen side base n = n := by
  cases side with
  | buy => simp [seen, FloatDiff.sub]
  | sell => simp [seen, FloatDiff.sub]

theorem filledSince_spec {r : Except String ℤ} (ht : Tracks side base b)
    (h : filledSince side base b = (r, b')) :
    Quiet side b b' [.held r.isOk] ∧ ∀ f, r = .ok f → f = b'.executed := by
  obtain ⟨hq, hf⟩ := filledSince_seen ht h
  exact ⟨hq, fun f hr => (hf f hr).trans (seen_whole side base _)⟩

theorem pollLoop_spec {want filled f : ℤ} {window fuel waited i : ℕ} (ht : Tracks side base b)
    (hle : filled ≤ b.executed)
    (h : pollLoop side base want window fuel waited i filled b = (f, b')) :
    ∃ polls, Quiet side b b' polls ∧ (∀ e ∈ polls, ∃ ok, e = .held ok) ∧ f ≤ b'.executed := by
  induction fuel generalizing waited i filled b with
  | zero =>
    obtain ⟨rfl, rfl⟩ := Prod.mk.inj h
    exact ⟨[], .refl side b, nofun, hle⟩
  | succ fuel ih =>
    unfold pollLoop at h
    split_ifs at h
    · rcases hs : filledSince side base b with ⟨now | now, b₁⟩
      · simp only [hs] at h
        obtain ⟨hq, -⟩ := filledSince_spec ht hs
        have hle₁ : filled ≤ b₁.executed := hle.trans (by exact_mod_cast hq.executed)
        obtain ⟨polls, hq', hpolls, hf⟩ := ih (hq.tracks base ht) hle₁ h
        refine ⟨_, hq.trans hq', ?_, hf⟩
        intro e he
        rcases List.mem_append.mp he with he | he
        · exact ⟨_, List.mem_singleton.mp he⟩
        · exact hpolls e he
      · simp only [hs] at h
        obtain ⟨hq, hnow⟩ := filledSince_spec ht hs
        obtain rfl := hnow now rfl
        split_ifs at h
        · obtain ⟨rfl, rfl⟩ := Prod.mk.inj h
          exact ⟨_, hq, fun e he => ⟨_, List.mem_singleton.mp he⟩, le_rfl⟩
        · obtain ⟨polls, hq', hpolls, hf⟩ := ih (hq.tracks base ht) le_rfl h
          refine ⟨_, hq.trans hq', ?_, hf⟩
          intro e he
          rcases List.mem_append.mp he with he | he
          · exact ⟨_, List.mem_singleton.mp he⟩
          · exact hpolls e he
    · obtain ⟨rfl, rfl⟩ := Prod.mk.inj h
      exact ⟨[], .refl side b, nofun, hle⟩

/-- An order moves the holding by fills only, and is one entry of the log. -/
theorem placeOrder_log {r : Except String (Option String)} (h : b.placeOrder side qty = (r, b')) :
    (∀ base, Tracks side base b → Tracks side base b') ∧ b.executed ≤ b'.executed ∧
      (b'.log = b.log ∨ ∃ odno, b'.log = b.log ++ [.order qty odno]) := by
  unfold Broker.placeOrder at h
  split_ifs at h with hq
  · obtain ⟨rfl, rfl⟩ := Prod.mk.inj h
    exact ⟨fun _ ht => ht, le_rfl, Or.inl rfl⟩
  · obtain ⟨rfl, rfl⟩ := Prod.mk.inj h
    have hquiet := quiet_advance side b
    exact ⟨hquiet.tracks, hquiet.executed, Or.inr ⟨_, rfl⟩⟩

/-- What an order does while no other one is live. -/
theorem placeOrder_spec {r : Except String (Option String)} (hlive : b.live = 0)
    (h : b.placeOrder side qty = (r, b')) : (∀ base, Tracks side base b → Tracks side base b') ∧
      b'.executed = b.executed ∧ b'.live ≤ qty.toNat ∧
      (∀ odno, r = .ok odno → 0 < qty ∧ b'.live = qty.toNat ∧ b'.log = b.log ++ [.order qty odno]) ∧
      (b'.log = b.log ∨ ∃ odno, b'.log = b.log ++ [.order qty odno]) := by
  obtain ⟨htracks, -, hlog⟩ := placeOrder_log h
  have hexec : (b.advance side).executed = b.executed := by
    simp [Broker.advance, Broker.filling, hlive]
  have hlive' : (b.advance side).live = 0 := by simp [Broker.advance, hlive]
  unfold Broker.placeOrder at h
  split_ifs at h with hq
  · obtain ⟨rfl, rfl⟩ := Prod.mk.inj h
    exact ⟨htracks, rfl, by omega, nofun, hlog⟩
  · obtain ⟨rfl, rfl⟩ := Prod.mk.inj h
    refine ⟨htracks, hexec, ?_, ?_, hlog⟩
    · simpa [Broker.note, hlive'] using
        Nat.mul_le_mul_right qty.toNat (b.moves b.clock).posts.taken_le_one
    · intro odno hr
      have htaken := (b.moves b.clock).posts.taken_of_odno hr
      refine ⟨not_le.mp hq, by simp [Broker.note, hlive', htaken], ?_⟩
      simp only [Broker.note, hr]
      rfl

theorem cancelOrder_spec {r : Except String Unit} (h : b.cancelOrder side odno = (r, b')) :
    (∀ base, Tracks side base b → Tracks side base b') ∧ b.executed ≤ b'.executed ∧
      b'.executed + b'.live ≤ b.executed + b.live ∧ b'.log = b.log ++ [.cancel odno r.isOk] ∧
      (r = .ok () → b'.live = 0) := by
  have hquiet := quiet_advance side b
  have htotal := hquiet.total
  have hle : (if (b.moves b.clock).posts.taken = 0 then (b.advance side).live else 0) ≤
      (b.advance side).live := by
    split_ifs
    · exact le_rfl
    · exact Nat.zero_le _
  unfold Broker.cancelOrder at h
  cases hm : (b.moves b.clock).posts.post.1 with
  | error e =>
    simp only [hm] at h
    obtain ⟨rfl, rfl⟩ := Prod.mk.inj h
    refine ⟨hquiet.tracks, hquiet.executed, ?_, rfl, nofun⟩
    simp only [Broker.note]
    omega
  | ok body =>
    simp only [hm] at h
    obtain ⟨rfl, rfl⟩ := Prod.mk.inj h
    have htaken := (b.moves b.clock).posts.taken_of_ok hm
    refine ⟨hquiet.tracks, hquiet.executed, ?_, rfl, fun _ => ?_⟩
    · simp only [Broker.note]
      omega
    · simp [Broker.note, htaken]

/-! ## Rounds -/

/-- Before a round: nothing is live, and what remains is exactly what is missing. -/
structure Ready (p : Chase) (b : Broker) (remaining : ℤ) : Prop where
  tracks : Tracks p.side p.base b
  live : b.live = 0
  total : b.executed + remaining = p.qty
  nonneg : 0 ≤ remaining
  guarded : Guarded b.log
  settled : Settled b.log

/-- After an order: the executed shares and the live ones make up the quantity. -/
structure Placed (p : Chase) (b : Broker) (odno : Option String) : Prop where
  tracks : Tracks p.side p.base b
  total : (b.executed + b.live : ℤ) = p.qty
  guarded : Guarded b.log
  ordered : ∃ before qty, b.log = before ++ [.order qty odno]

/-- At the end: no over-fill, and no share is reported that was not executed. -/
structure Safe (p : Chase) (b : Broker) (remaining : ℤ) : Prop where
  total : (b.executed + b.live : ℤ) ≤ p.qty
  seen : p.qty - remaining ≤ b.executed
  guarded : Guarded b.log

theorem Ready.safe (h : Ready p b remaining) : Safe p b remaining where
  total := by
    have := h.total
    have := h.nonneg
    rw [h.live]
    push_cast
    omega
  seen := by
    have := h.total
    omega
  guarded := h.guarded

theorem Ready.quiet (h : Ready p b remaining) (hq : Quiet p.side b b' es)
    (hes : ∀ e ∈ es, e = .quote) : Safe p b' remaining where
  total := by
    have := h.safe.total
    have := hq.total
    omega
  seen := by
    have := h.safe.seen
    have := hq.executed
    omega
  guarded := by
    rw [hq.log]
    exact h.guarded.append (not_isOrder_of_quote hes)

theorem Ready.order {b₀ : Broker} {r : Except String (Option String)}
    (h : Ready p b₀ remaining) (hq : Quiet p.side b₀ b es) (hes : ∀ e ∈ es, e = .quote)
    (ho : b.placeOrder p.side remaining = (r, b')) :
    Safe p b' remaining ∧ ∀ odno, r = .ok odno → Placed p b' odno := by
  have hexec := hq.executed
  have hsum := hq.total
  have htotal := h.total
  have hnonneg := h.nonneg
  have hlive₀ := h.live
  have hlive : b.live = 0 := by omega
  obtain ⟨htracks, hexec', hlive', hok, hlog⟩ := placeOrder_spec hlive ho
  have hg := (h.quiet hq hes).guarded
  have hg' : ∀ odno, Guarded (b.log ++ [.order remaining odno]) := by
    intro odno
    rw [hq.log] at hg ⊢
    exact hg.order h.settled hes
  have hguarded : Guarded b'.log := by
    rcases hlog with he | ⟨odno, he⟩
    · rwa [he]
    · rw [he]
      exact hg' odno
  refine ⟨⟨by omega, by omega, hguarded⟩, ?_⟩
  intro odno hr
  obtain ⟨hpos, hlive'', hlog'⟩ := hok odno hr
  exact ⟨htracks _ (hq.tracks _ h.tracks), by omega, hguarded, _, _, hlog'⟩

theorem price_spec {n : ℕ} {r : Except String (Option ℚ)} (h : p.price n b = (r, b')) :
    ∃ es, Quiet p.side b b' es ∧ ∀ e ∈ es, e = .quote := by
  unfold Chase.price at h
  split_ifs at h
  · obtain ⟨-, rfl⟩ := Prod.mk.inj h
    exact ⟨[], .refl _ b, nofun⟩
  · rcases hq : b.priceAndExchange p.side with ⟨e | ⟨px, exch⟩, b₁⟩
    · simp only [hq] at h
      obtain ⟨-, rfl⟩ := Prod.mk.inj h
      exact ⟨_, priceAndExchange_spec hq, fun e he => List.mem_singleton.mp he⟩
    · simp only [hq] at h
      obtain ⟨-, rfl⟩ := Prod.mk.inj h
      exact ⟨_, priceAndExchange_spec hq, fun e he => List.mem_singleton.mp he⟩

theorem quiet_of_price {n : ℕ} (h : b' = b ∨ ∃ r, p.price n b = (r, b')) :
    ∃ es, Quiet p.side b b' es ∧ ∀ e ∈ es, e = .quote := by
  rcases h with rfl | ⟨r, h⟩
  · exact ⟨[], .refl _ b', nofun⟩
  · exact price_spec h

theorem submit_spec {n : ℕ} (hr : Ready p b remaining) (h : p.submit n remaining b = (att, b')) :
    Safe p b' remaining ∧ (att.error = none → Placed p b' att.odno) := by
  obtain ⟨b₁, hprice, hround⟩ := Chase.submit_cases h
  obtain ⟨es, hq, hes⟩ := quiet_of_price hprice
  rcases hround with ⟨herr, rfl⟩ | ⟨r, ho, hr'⟩
  · refine ⟨hr.quiet hq hes, ?_⟩
    intro hnone
    rw [hnone] at herr
    cases herr
  · obtain ⟨hs, hplaced⟩ := hr.order hq hes ho
    refine ⟨hs, ?_⟩
    intro hnone
    rcases hr' with ⟨e, -, herr⟩ | ⟨hok, -⟩
    · rw [hnone] at herr
      cases herr
    · exact hplaced _ hok

/-- The reading after a cancel: no order is placed, and a reading that succeeds is exact. -/
theorem reread_spec {r : Except String ℤ} (remaining : ℤ) (ht : Tracks p.side p.base b)
    (hsum : (b.executed + b.live : ℤ) ≤ p.qty) (hseen : p.qty - remaining ≤ b.executed)
    (hg : Guarded b.log) (h : filledSince p.side p.base b = (r, b')) :
    Safe p b' remaining ∧ ∀ f, r = .ok f → f = b'.executed ∧ Safe p b' (p.qty - f) := by
  obtain ⟨hq, hf⟩ := filledSince_spec ht h
  have htotal := hq.total
  have hexec := hq.executed
  have hg' : Guarded b'.log := by
    rw [hq.log]
    exact hg.append (not_isOrder_of_held fun e he => ⟨_, List.mem_singleton.mp he⟩)
  refine ⟨⟨by omega, by omega, hg'⟩, ?_⟩
  intro f hr
  have hf' := hf f hr
  exact ⟨hf', by omega, by omega, hg'⟩

/-- A round goes on only after its cancel and a new reading succeeded. -/
theorem follow_spec {more : Bool} (hp : Placed p b att.odno)
    (h : p.follow att b = ((more, remaining, att'), b')) :
    Safe p b' remaining ∧ (more = true → Ready p b' remaining) := by
  obtain ⟨-, filledTotal, b₁, hpoll, hround⟩ := Chase.follow_cases h
  obtain ⟨polls, hq, hpolls, hfilled⟩ :=
    pollLoop_spec hp.tracks (by exact_mod_cast Nat.zero_le b.executed) hpoll
  have htotal := hp.total
  have hsum := hq.total
  have ht₁ := hq.tracks _ hp.tracks
  have hg₁ : Guarded b₁.log := by
    rw [hq.log]
    exact hp.guarded.append (not_isOrder_of_held hpolls)
  rcases hround with ⟨-, rfl, rfl, rfl⟩ | ⟨-, cancelled, b₂, reread, hc, hs, hend⟩
  · exact ⟨⟨by omega, by omega, hg₁⟩, nofun⟩
  obtain ⟨ht, hexec, hle, hlog, hlive⟩ := cancelOrder_spec hc
  have hg₂ : Guarded b₂.log := by
    rw [hlog]
    exact hg₁.append fun e he => by rw [List.mem_singleton.mp he]; exact id
  obtain ⟨hsafe, hfinal⟩ :=
    reread_spec (p.qty - filledTotal) (ht _ ht₁) (by omega) (by omega) hg₂ hs
  rcases hend with ⟨e, rfl, rfl, rfl⟩ | ⟨f, rfl, rfl, hmore⟩
  · -- without a reading the chase ends with what it knew
    exact ⟨hsafe, nofun⟩
  · obtain ⟨hf, hsafe⟩ := hfinal f rfl
    refine ⟨hsafe, ?_⟩
    rintro rfl
    obtain ⟨hok, hpos⟩ : cancelled.isOk = true ∧ 0 < p.qty - f := by simpa using hmore.symm
    -- nothing is live any more, so the reading after the cancel is final
    obtain ⟨u, rfl⟩ : ∃ u, cancelled = .ok u := by
      cases cancelled with
      | error e => cases hok
      | ok u => exact ⟨u, rfl⟩
    have hlive₂ := hlive rfl
    obtain ⟨hq₃, -⟩ := filledSince_spec (ht _ ht₁) hs
    have hsum₃ := hq₃.total
    have hexec₃ := hq₃.executed
    refine ⟨hq₃.tracks _ (ht _ ht₁), by omega, by omega, hpos.le, hsafe.guarded, Or.inr ?_⟩
    obtain ⟨before, qty, hbefore⟩ := hp.ordered
    refine ⟨before, qty, att.odno, polls, ?_, hpolls⟩
    rw [hq₃.log, hlog, hq.log, hbefore]
    simp [Except.isOk, Except.toBool]

theorem rounds_spec {k n : ℕ} {attempts : List Attempt} {remaining' : ℤ} {attempts' : List Attempt}
    (hr : Ready p b remaining)
    (h : p.rounds k n remaining attempts b = ((remaining', attempts'), b')) :
    Safe p b' remaining' := by
  induction k generalizing n remaining attempts b with
  | zero =>
    obtain ⟨he, rfl⟩ := Prod.mk.inj h
    obtain ⟨rfl, -⟩ := Prod.mk.inj he
    exact hr.safe
  | succ k ih =>
    unfold Chase.rounds at h
    rcases hs : p.submit n remaining b with ⟨att, b₁⟩
    obtain ⟨hsafe, hplaced⟩ := submit_spec hr hs
    simp only [hs] at h
    split_ifs at h with herr
    · obtain ⟨he, rfl⟩ := Prod.mk.inj h
      obtain ⟨rfl, -⟩ := Prod.mk.inj he
      exact hsafe
    · have hp := hplaced (by simpa using herr)
      rcases hf : p.follow att b₁ with ⟨⟨_ | _, remaining₁, att₁⟩, b₂⟩
      · simp only [hf] at h
        obtain ⟨he, rfl⟩ := Prod.mk.inj h
        obtain ⟨rfl, -⟩ := Prod.mk.inj he
        exact (follow_spec hp hf).1
      · simp only [hf] at h
        exact ih ((follow_spec hp hf).2 rfl) h

/-! ## The whole call -/

theorem openingQuote_spec {market : Market} {refPrice : Option ℚ} {exchange : Option String}
    {r : Except String (Option ℚ × Option String)}
    (h : openingQuote market side refPrice exchange b = (r, b')) :
    ∃ es, Quiet side b b' es ∧ ∀ e ∈ es, e = .quote := by
  unfold openingQuote at h
  split_ifs at h
  · exact ⟨_, priceAndExchange_spec h, fun e he => List.mem_singleton.mp he⟩
  · obtain ⟨-, rfl⟩ := Prod.mk.inj h
    exact ⟨[], .refl _ b, nofun⟩

theorem statusOf_filled_iff {attempts : List Attempt} :
    statusOf qty remaining attempts = .filled ↔ remaining ≤ 0 := by
  unfold statusOf
  split_ifs <;> simp_all

theorem guarded_of_no_order (h : ∀ e ∈ log, ¬ e.IsOrder) : Guarded log := by
  rintro before qty odno after rfl
  exact absurd trivial (h (.order qty odno) (by simp))

theorem Quiet.of_opening {moves : ℕ → Move} {held : ℚ} (hq : Quiet side (.opening moves held) b es)
    (hes : ∀ e ∈ es, ¬ e.IsOrder) : b.executed = 0 ∧ b.live = 0 ∧ ∀ e ∈ b.log, ¬ e.IsOrder := by
  have hsum : b.executed + b.live = 0 := hq.total
  have hlog : b.log = es := hq.log
  exact ⟨by omega, by omega, by rwa [hlog]⟩

theorem tracks_opening {market : Market} {refPrice px0 : Option ℚ} {exchange exch : Option String}
    {moves : ℕ → Move} {held : ℚ} {b₀ : Broker}
    (hopen : openingQuote market side refPrice exchange (.opening moves held) = (.ok (px0, exch), b₀))
    (hheld : b₀.heldQty side = (.ok base, b)) : Tracks side base b := by
  obtain ⟨es, hq, hes⟩ := openingQuote_spec hopen
  obtain ⟨hq', hbase⟩ := heldQty_spec hheld
  obtain ⟨hexec, -, -⟩ := (hq.trans hq').of_opening fun e he =>
    (List.mem_append.mp he).elim (not_isOrder_of_quote hes e)
      (not_isOrder_of_held (fun e he => ⟨_, List.mem_singleton.mp he⟩) e)
  unfold Tracks
  cases side with
  | buy => simp [hexec, hbase base rfl]
  | sell => simp [hexec, hbase base rfl]

theorem ready_opening {market : Market} {refPrice px0 : Option ℚ} {exchange exch : Option String}
    {window : ℕ} {moves : ℕ → Move} {held : ℚ} {b₀ : Broker} (hqty : 0 ≤ qty)
    (hopen : openingQuote market side refPrice exchange (.opening moves held) = (.ok (px0, exch), b₀))
    (hheld : b₀.heldQty side = (.ok base, b)) :
    Ready ⟨market, side, qty, px0, exch, base, window⟩ b qty := by
  obtain ⟨es, hq, hes⟩ := openingQuote_spec hopen
  obtain ⟨hq', -⟩ := heldQty_spec hheld
  obtain ⟨hexec, hlive, hlog⟩ := (hq.trans hq').of_opening fun e he =>
    (List.mem_append.mp he).elim (not_isOrder_of_quote hes e)
      (not_isOrder_of_held (fun e he => ⟨_, List.mem_singleton.mp he⟩) e)
  exact ⟨tracks_opening hopen hheld, hlive, by simp [hexec], hqty, guarded_of_no_order hlog,
    Or.inl hlog⟩

theorem placeAndChase_spec {market : Market} {refPrice : Option ℚ} {exchange : Option String}
    {maxAttempts window : ℤ} {moves : ℕ → Move} {held : ℚ} {r : Except String Result}
    (hqty : 0 ≤ qty) (h : placeAndChase market side qty refPrice exchange maxAttempts window
      (.opening moves held) = (r, b)) :
    (b.executed + b.live : ℤ) ≤ qty ∧ Guarded b.log ∧
      ∀ res, r = .ok res → res.filledQty ≤ b.executed ∧
        (res.status = .filled → (b.executed : ℤ) = qty) := by
  unfold placeAndChase at h
  rcases hopen : openingQuote market side refPrice exchange (.opening moves held) with
    ⟨e | ⟨px0, exch⟩, b₀⟩
  · obtain ⟨es, hq, hes⟩ := openingQuote_spec hopen
    simp only [hopen] at h
    obtain ⟨rfl, rfl⟩ := Prod.mk.inj h
    obtain ⟨hexec, hlive, hlog⟩ := hq.of_opening (not_isOrder_of_quote hes)
    exact ⟨by omega, guarded_of_no_order hlog, nofun⟩
  obtain ⟨es, hq, hes⟩ := openingQuote_spec hopen
  simp only [hopen] at h
  rcases hheld : b₀.heldQty side with ⟨e | base, b₁⟩
  all_goals
    obtain ⟨hq', hbase⟩ := heldQty_spec hheld
    obtain ⟨hexec, hlive, hlog⟩ := (hq.trans hq').of_opening fun e he =>
      (List.mem_append.mp he).elim (not_isOrder_of_quote hes e)
        (not_isOrder_of_held (fun e he => ⟨_, List.mem_singleton.mp he⟩) e)
    simp only [hheld] at h
  · obtain ⟨rfl, rfl⟩ := Prod.mk.inj h
    exact ⟨by omega, guarded_of_no_order hlog, nofun⟩
  · let p : Chase := ⟨market, side, qty, px0, exch, base, window.toNat⟩
    have hready : Ready p b₁ qty := ready_opening hqty hopen hheld
    rcases hrounds : p.rounds (roundCount maxAttempts market) 0 qty [] b₁ with
      ⟨⟨remaining, attempts⟩, b₂⟩
    have hsafe := rounds_spec hready hrounds
    have htotal : (b₂.executed + b₂.live : ℤ) ≤ qty := hsafe.total
    have hseen : qty - remaining ≤ b₂.executed := hsafe.seen
    simp only [p] at hrounds
    rw [hrounds] at h
    obtain ⟨rfl, rfl⟩ := Prod.mk.inj h
    refine ⟨htotal, hsafe.guarded, ?_⟩
    rintro res ⟨⟩
    refine ⟨hseen, ?_⟩
    intro hfilled
    have hle : remaining ≤ 0 := statusOf_filled_iff.mp hfilled
    dsimp only
    omega

/-- The call never over-fills a holding in whole shares, orders again only after a cancel and a
reading that succeeded, and has executed exactly the quantity when it says so. -/
theorem chase_never_overfills (market : Market) (side : Side) (qty : ℤ) (refPrice : Option ℚ)
    (exchange : Option String) (maxAttempts window : ℤ) (moves : ℕ → Move) (held : ℤ)
    (hqty : 0 ≤ qty) :
    let (r, b) := placeAndChase market side qty refPrice exchange maxAttempts window
      (.opening moves held)
    (b.executed + b.live : ℤ) ≤ qty ∧ Guarded b.log ∧
      ∀ res, r = .ok res → res.status = .filled → (b.executed : ℤ) = qty := by
  rcases h : placeAndChase market side qty refPrice exchange maxAttempts window
    (.opening moves held) with ⟨r, b⟩
  obtain ⟨htotal, hguarded, hres⟩ := placeAndChase_spec hqty h
  exact ⟨htotal, hguarded, fun res hr => (hres res hr).2⟩

/-- Three shares fill, the rest is cancelled, read again and ordered anew; the gateway refuses that
order for the rate at first. -/
def twoRounds : ℕ → Move := fun n =>
  { fill := if n = 2 then 3 else 10 * (n / 8)
    raised := none
    posts := if n < 6 then PostRetry.acknowledgedPosts (toString n) else PostRetry.retriedPosts
    price := some 100
    exchange := some "NASD" }

theorem chase_never_overfills_twoRounds :
    let (r, b) := placeAndChase .us .buy 10 (some 100) (some "NASD") 3 5 (.opening twoRounds (4 : ℤ))
    (∃ res, r = .ok res ∧ res.status = .filled ∧ res.attempts.length = 2) ∧
      (b.executed + b.live : ℤ) ≤ 10 ∧ Guarded b.log ∧
      ∀ res, r = .ok res → res.status = .filled → (b.executed : ℤ) = 10 :=
  ⟨⟨_, rfl, by decide +kernel, by decide +kernel⟩,
    chase_never_overfills .us .buy 10 (some 100) (some "NASD") 3 5 twoRounds 4 (by decide)⟩

end QuantTrader.Kis
