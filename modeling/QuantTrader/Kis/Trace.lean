import Mathlib.Algebra.BigOperators.Intervals
import QuantTrader.Kis.NoOverfill

/-! # What a chase leaves at the broker

The log of a call has one entry for each move of the broker. From both one reads
off when an order can outlive the call: an order that raised and was accepted by
one of its POSTs, a cancel that raised and was not carried out, a domestic order
that nothing cancels.
-/

namespace QuantTrader.Kis

open Ledger (Side)

variable {moves : ℕ → Move} {side : Side} {b b' : Broker} {log es : List Event} {p : Chase}
  {att att' : Attempt} {remaining : ℤ}

/-! ## Reading a log -/

/-- A property of every entry and its position. -/
def Each (P : ℕ → Event → Prop) (log : List Event) : Prop := ∀ i e, log[i]? = some e → P i e

theorem each_nil (P : ℕ → Event → Prop) : Each P [] := by
  intro i e h
  simp at h

theorem each_snoc {P : ℕ → Event → Prop} {e : Event} :
    Each P (log ++ [e]) ↔ Each P log ∧ P log.length e := by
  constructor
  · intro h
    refine ⟨?_, h log.length e (by simp)⟩
    intro i e' hi
    have hlt : i < log.length := (List.getElem?_eq_some_iff.mp hi).1
    exact h i e' (by rwa [List.getElem?_append_left hlt])
  · rintro ⟨h, he⟩ i e' hi
    rcases Nat.lt_or_ge i log.length with hlt | hge
    · exact h i e' (by rwa [List.getElem?_append_left hlt] at hi)
    · rw [List.getElem?_append_right hge, List.getElem?_singleton] at hi
      split_ifs at hi with hz
      obtain rfl : i = log.length := by omega
      obtain rfl := Option.some.inj hi
      exact he

theorem each_append_of_forall {P : ℕ → Event → Prop} (hes : ∀ e ∈ es, ∀ i, P i e)
    (h : Each P log) : Each P (log ++ es) := by
  induction es using List.reverseRecOn with
  | nil => simpa using h
  | append_singleton es e ih =>
    rw [← List.append_assoc, each_snoc]
    exact ⟨ih fun e' he' => hes e' (by simp [he']), hes e (by simp) _⟩

def Event.IsLostCancel : Event → Prop
  | .cancel _ ok => ok = false
  | _ => False

/-- An order that raises was accepted by none of its POSTs. -/
def NoGhost (moves : ℕ → Move) : List Event → Prop :=
  Each fun i e => e.IsOrder → (moves i).posts.odno.isOk = false → (moves i).posts.taken = 0

/-- A cancel that raises was carried out. -/
def CancelsKept (moves : ℕ → Move) : List Event → Prop :=
  Each fun i e => e.IsLostCancel → (moves i).posts.taken ≠ 0

/-- Every order raised. -/
def NoneAcknowledged (moves : ℕ → Move) : List Event → Prop :=
  Each fun i e => e.IsOrder → (moves i).posts.odno.isOk = false

/-- The broker accepted none of the orders. -/
def NoneAccepted (moves : ℕ → Move) : List Event → Prop :=
  Each fun i e => e.IsOrder → (moves i).posts.taken = 0

/-- What the broker offers to fill during `n` calls. -/
def fills (moves : ℕ → Move) (start n : ℕ) : ℕ :=
  ∑ i ∈ Finset.range n, (moves (start + i)).fill

/-- The last order of the log is filled during the calls after it. -/
def LastFilled (moves : ℕ → Move) (log : List Event) : Prop :=
  ∀ before qty odno after, log = before ++ .order qty odno :: after →
    (∀ e ∈ after, ¬ e.IsOrder) → qty.toNat ≤ fills moves (before.length + 1) after.length

/-- No order outlives the call: a failed POST was not accepted, and an order whose cancel failed,
like a domestic one, was filled while the call went on. -/
def Conclusive (moves : ℕ → Move) (market : Market) (log : List Event) : Prop :=
  NoGhost moves log ∧ (¬ CancelsKept moves log → LastFilled moves log) ∧
    (market = .kr → ¬ NoneAcknowledged moves log → LastFilled moves log)

theorem fills_add (start m n : ℕ) :
    fills moves start (m + n) = fills moves start m + fills moves (start + m) n := by
  unfold fills
  rw [Finset.sum_range_add]
  simp only [Nat.add_assoc]

theorem taken_of_isOk {posts : PostRetry.Posts} (h : posts.odno.isOk = true) : posts.taken = 1 := by
  obtain ⟨n, hn⟩ := Transition.exists_ok_of_isOk h
  exact posts.taken_of_odno hn

theorem noneAccepted_iff : NoneAccepted moves log ↔ NoneAcknowledged moves log ∧ NoGhost moves log := by
  constructor
  · intro h
    refine ⟨fun i e hi ho => ?_, fun i e hi ho _ => h i e hi ho⟩
    by_contra hok
    have htaken := taken_of_isOk (Bool.not_eq_false _ ▸ hok)
    rw [h i e hi ho] at htaken
    cases htaken
  · rintro ⟨ha, hg⟩ i e hi ho
    exact hg i e hi ho (ha i e hi ho)

theorem lastFilled_iff {before after : List Event} {qty : ℤ} {odno : Option String}
    (ha : ∀ e ∈ after, ¬ e.IsOrder) :
    LastFilled moves (before ++ .order qty odno :: after) ↔
      qty.toNat ≤ fills moves (before.length + 1) after.length := by
  constructor
  · exact fun h => h before qty odno after rfl ha
  · rintro h before' qty' odno' after' heq ha'
    rcases List.append_eq_append_iff.mp heq with ⟨mid, rfl, hrest⟩ | ⟨mid, rfl, hrest⟩
    · cases mid with
      | nil =>
        obtain ⟨⟨-⟩, rfl⟩ := List.cons.inj hrest
        simpa using h
      | cons x mid =>
        obtain ⟨-, rfl⟩ := List.cons.inj hrest
        exact absurd trivial (ha (.order qty' odno') (by simp))
    · cases mid with
      | nil =>
        obtain ⟨⟨-⟩, rfl⟩ := List.cons.inj hrest
        simpa using h
      | cons x mid =>
        obtain ⟨-, rfl⟩ := List.cons.inj hrest
        exact absurd trivial (ha' (.order qty odno) (by simp))

/-! ## Passive calls -/

/-- Calls that neither open nor close an order: the open remainder shrinks by what fills. -/
structure Passive (b b' : Broker) (es : List Event) : Prop where
  moves : b'.moves = b.moves
  clock : b'.clock = b.clock + es.length
  log : b'.log = b.log ++ es
  idle : ∀ e ∈ es, e = .quote ∨ ∃ ok, e = .held ok
  live : b'.live = b.live - fills b.moves b.clock es.length

namespace Passive

theorem refl (b : Broker) : Passive b b [] :=
  ⟨rfl, rfl, (List.append_nil _).symm, nofun, by simp [fills]⟩

theorem trans {b'' : Broker} {es' : List Event} (h : Passive b b' es) (h' : Passive b' b'' es') :
    Passive b b'' (es ++ es') where
  moves := h'.moves.trans h.moves
  clock := by rw [h'.clock, h.clock, List.length_append, Nat.add_assoc]
  log := by rw [h'.log, h.log, List.append_assoc]
  idle e he := (List.mem_append.mp he).elim (h.idle e) (h'.idle e)
  live := by rw [h'.live, h.live, h.moves, h.clock, List.length_append, fills_add, Nat.sub_sub]

theorem not_isOrder (h : Passive b b' es) : ∀ e ∈ es, ¬ e.IsOrder := by
  intro e he
  rcases h.idle e he with rfl | ⟨ok, rfl⟩ <;> exact id

end Passive

theorem advance_live (side : Side) (b : Broker) :
    (b.advance side).live = b.live - (b.moves b.clock).fill := by
  simp only [Broker.advance, Broker.filling]
  omega

theorem passive_note (side : Side) (b : Broker) {e : Event}
    (he : e = .quote ∨ ∃ ok, e = .held ok) : Passive b ((b.advance side).note e) [e] where
  moves := rfl
  clock := rfl
  log := rfl
  idle e' he' := by
    rw [List.mem_singleton.mp he']
    exact he
  live := by
    show (b.advance side).live = _
    rw [advance_live]
    simp [fills]

theorem passive_heldQty {r : Except String ℚ} (h : b.heldQty side = (r, b')) :
    Passive b b' [.held r.isOk] := by
  unfold Broker.heldQty at h
  cases hm : (b.moves b.clock).raised with
  | some e =>
    simp only [hm] at h
    obtain ⟨rfl, rfl⟩ := Prod.mk.inj h
    exact passive_note side b (Or.inr ⟨_, rfl⟩)
  | none =>
    simp only [hm] at h
    obtain ⟨rfl, rfl⟩ := Prod.mk.inj h
    exact passive_note side b (Or.inr ⟨_, rfl⟩)

theorem passive_priceAndExchange {r : Except String (Option ℚ × Option String)}
    (h : b.priceAndExchange side = (r, b')) : Passive b b' [.quote] := by
  unfold Broker.priceAndExchange at h
  cases hm : (b.moves b.clock).raised with
  | some e =>
    simp only [hm] at h
    obtain ⟨-, rfl⟩ := Prod.mk.inj h
    exact passive_note side b (Or.inl rfl)
  | none =>
    simp only [hm] at h
    obtain ⟨-, rfl⟩ := Prod.mk.inj h
    exact passive_note side b (Or.inl rfl)

theorem passive_filledSince {base : ℚ} {r : Except String ℤ}
    (h : filledSince side base b = (r, b')) : Passive b b' [.held r.isOk] := by
  unfold filledSince at h
  rcases hheld : b.heldQty side with ⟨now | now, b₁⟩
  · simp only [hheld] at h
    obtain ⟨rfl, rfl⟩ := Prod.mk.inj h
    exact passive_heldQty hheld
  · simp only [hheld] at h
    obtain ⟨rfl, rfl⟩ := Prod.mk.inj h
    exact passive_heldQty hheld

theorem passive_pollLoop {base : ℚ} {want filled f : ℤ} {window fuel waited i : ℕ}
    (h : pollLoop side base want window fuel waited i filled b = (f, b')) :
    ∃ es, Passive b b' es := by
  induction fuel generalizing waited i filled b with
  | zero =>
    obtain ⟨-, rfl⟩ := Prod.mk.inj h
    exact ⟨[], .refl b⟩
  | succ fuel ih =>
    unfold pollLoop at h
    split_ifs at h
    · rcases hs : filledSince side base b with ⟨now | now, b₁⟩
      · simp only [hs] at h
        obtain ⟨es, hes⟩ := ih h
        exact ⟨_, (passive_filledSince hs).trans hes⟩
      · simp only [hs] at h
        split_ifs at h
        · obtain ⟨-, rfl⟩ := Prod.mk.inj h
          exact ⟨_, passive_filledSince hs⟩
        · obtain ⟨es, hes⟩ := ih h
          exact ⟨_, (passive_filledSince hs).trans hes⟩
    · obtain ⟨-, rfl⟩ := Prod.mk.inj h
      exact ⟨[], .refl b⟩

theorem passive_price {n : ℕ} {r : Except String (Option ℚ)} (h : p.price n b = (r, b')) :
    ∃ es, Passive b b' es := by
  unfold Chase.price at h
  split_ifs at h
  · obtain ⟨-, rfl⟩ := Prod.mk.inj h
    exact ⟨[], .refl b⟩
  · rcases hq : b.priceAndExchange p.side with ⟨e | ⟨px, exch⟩, b₁⟩
    · simp only [hq] at h
      obtain ⟨-, rfl⟩ := Prod.mk.inj h
      exact ⟨_, passive_priceAndExchange hq⟩
    · simp only [hq] at h
      obtain ⟨-, rfl⟩ := Prod.mk.inj h
      exact ⟨_, passive_priceAndExchange hq⟩

theorem passive_openingQuote {market : Market} {refPrice : Option ℚ} {exchange : Option String}
    {r : Except String (Option ℚ × Option String)}
    (h : openingQuote market side refPrice exchange b = (r, b')) : ∃ es, Passive b b' es := by
  unfold openingQuote at h
  split_ifs at h
  · exact ⟨_, passive_priceAndExchange h⟩
  · obtain ⟨-, rfl⟩ := Prod.mk.inj h
    exact ⟨[], .refl b⟩

/-! ## Orders and cancels -/

/-- An order reached the broker: it is live if one of its POSTs was accepted. -/
structure Ordered (b b' : Broker) (qty : ℤ) : Prop where
  moves : b'.moves = b.moves
  clock : b'.clock = b.clock + 1
  log : ∃ odno, b'.log = b.log ++ [.order qty odno]
  live : b'.live = (b.moves b.clock).posts.taken * qty.toNat

theorem placeOrder_trace {qty : ℤ} {r : Except String (Option String)} (hlive : b.live = 0)
    (hpos : 0 < qty) (h : b.placeOrder side qty = (r, b')) :
    Ordered b b' qty ∧ r.isOk = (b.moves b.clock).posts.odno.isOk := by
  have hlive' : (b.advance side).live = 0 := by rw [advance_live, hlive, Nat.zero_sub]
  unfold Broker.placeOrder at h
  rw [if_neg (by omega)] at h
  obtain ⟨rfl, rfl⟩ := Prod.mk.inj h
  exact ⟨⟨rfl, rfl, ⟨_, rfl⟩, by simp [Broker.note, hlive']⟩, rfl⟩

theorem submit_trace {n : ℕ} (hlive : b.live = 0) (hpos : 0 < remaining)
    (h : p.submit n remaining b = (att, b')) :
    ∃ es b₁, Passive b b₁ es ∧ ((b' = b₁ ∧ att.error.isSome) ∨
      (Ordered b₁ b' remaining ∧
        (att.error = none ↔ (b₁.moves b₁.clock).posts.odno.isOk = true))) := by
  obtain ⟨b₁, hprice, hround⟩ := Chase.submit_cases h
  obtain ⟨es, hes⟩ : ∃ es, Passive b b₁ es := by
    rcases hprice with rfl | ⟨r, hp⟩
    · exact ⟨[], .refl b₁⟩
    · exact passive_price hp
  refine ⟨es, b₁, hes, ?_⟩
  rcases hround with ⟨herr, rfl⟩ | ⟨r, ho, hr⟩
  · exact Or.inl ⟨rfl, herr⟩
  · have hlive₁ : b₁.live = 0 := by rw [hes.live, hlive, Nat.zero_sub]
    obtain ⟨hord, hok⟩ := placeOrder_trace hlive₁ hpos ho
    refine Or.inr ⟨hord, ?_⟩
    rw [← hok]
    rcases hr with ⟨e, rfl, herr⟩ | ⟨rfl, herr⟩
    all_goals simp [herr, Except.isOk, Except.toBool]

structure Cancelled (b b' : Broker) (ok : Bool) : Prop where
  moves : b'.moves = b.moves
  clock : b'.clock = b.clock + 1
  log : ∃ odno, b'.log = b.log ++ [.cancel odno ok]
  live : b'.live = if ok ∨ (b.moves b.clock).posts.taken ≠ 0 then 0
    else b.live - (b.moves b.clock).fill

theorem cancelOrder_trace {odno : Option String} {r : Except String Unit}
    (h : b.cancelOrder side odno = (r, b')) : Cancelled b b' r.isOk := by
  unfold Broker.cancelOrder at h
  cases hm : (b.moves b.clock).posts.post.1 with
  | error e =>
    simp only [hm] at h
    obtain ⟨rfl, rfl⟩ := Prod.mk.inj h
    refine ⟨rfl, rfl, ⟨odno, rfl⟩, ?_⟩
    simp only [Broker.note, advance_live, Except.isOk, Except.toBool, Bool.false_eq_true, false_or,
      ne_eq, ite_not]
  | ok body =>
    simp only [hm] at h
    obtain ⟨rfl, rfl⟩ := Prod.mk.inj h
    have htaken := (b.moves b.clock).posts.taken_of_ok hm
    exact ⟨rfl, rfl, ⟨odno, rfl⟩, by simp [Broker.note, Except.isOk, Except.toBool, htaken]⟩

/-- The rest of a round: polls; then, abroad and with shares missing, a cancel and a reading. The
chase goes on only after a cancel that did not raise. -/
theorem follow_trace {more : Bool} {remaining' : ℤ}
    (h : p.follow att b = ((more, remaining', att'), b')) :
    att'.error = att.error ∧ ∃ es b₁, Passive b b₁ es ∧
      ((more = false ∧ b' = b₁ ∧ (p.market = .kr ∨ remaining' ≤ 0)) ∨
        ∃ ok b₂ ok', p.market = .us ∧ Cancelled b₁ b₂ ok ∧ Passive b₂ b' [.held ok'] ∧
          (more = true → ok = true ∧ 0 < remaining')) := by
  obtain ⟨herr, filledTotal, b₁, hpoll, hround⟩ := Chase.follow_cases h
  obtain ⟨es, hes⟩ := passive_pollLoop hpoll
  refine ⟨herr, es, b₁, hes, ?_⟩
  rcases hround with ⟨hstop, rfl, rfl, rfl⟩ | ⟨hstop, cancelled, b₂, reread, hc, hs, hend⟩
  · exact Or.inl ⟨rfl, rfl, hstop.symm⟩
  · have hus : p.market = .us := by
      cases hm : p.market with
      | kr => exact absurd (Or.inr hm) hstop
      | us => rfl
    refine Or.inr ⟨_, b₂, _, hus, cancelOrder_trace hc, passive_filledSince hs, ?_⟩
    rcases hend with ⟨e, -, rfl, -⟩ | ⟨f, -, rfl, rfl⟩
    · exact nofun
    · intro hmore
      exact (Bool.and_eq_true_iff.mp hmore).imp_right of_decide_eq_true

/-! ## How a chase ends -/

/-- The log so far has no accepted order behind an error and no cancel that was lost. -/
structure Calm (moves : ℕ → Move) (b : Broker) : Prop where
  moves_eq : b.moves = moves
  clock_eq : b.clock = b.log.length
  noGhost : NoGhost moves b.log
  kept : CancelsKept moves b.log

theorem Calm.passive (h : Calm moves b) (hp : Passive b b' es) : Calm moves b' where
  moves_eq := hp.moves.trans h.moves_eq
  clock_eq := by rw [hp.clock, hp.log, List.length_append, h.clock_eq]
  noGhost := by
    rw [hp.log]
    exact each_append_of_forall (fun e he _ ho => absurd ho (hp.not_isOrder e he)) h.noGhost
  kept := by
    rw [hp.log]
    refine each_append_of_forall (fun e he _ hl => ?_) h.kept
    rcases hp.idle e he with rfl | ⟨ok, rfl⟩ <;> cases hl

theorem NoneAcknowledged.passive (h : NoneAcknowledged moves b.log) (hp : Passive b b' es) :
    NoneAcknowledged moves b'.log := by
  rw [hp.log]
  exact each_append_of_forall (fun e he _ ho => absurd ho (hp.not_isOrder e he)) h

theorem Calm.ordered {qty : ℤ} (h : Calm moves b) (ho : Ordered b b' qty)
    (hg : (moves b.clock).posts.odno.isOk = false → (moves b.clock).posts.taken = 0) :
    Calm moves b' := by
  obtain ⟨odno, hlog⟩ := ho.log
  refine ⟨ho.moves.trans h.moves_eq, ?_, ?_, ?_⟩
  · rw [ho.clock, hlog, List.length_append, h.clock_eq]
    rfl
  · rw [hlog]
    exact each_snoc.mpr ⟨h.noGhost, fun _ => by rwa [← h.clock_eq]⟩
  · rw [hlog]
    exact each_snoc.mpr ⟨h.kept, nofun⟩

theorem Calm.cancelled {ok : Bool} (h : Calm moves b) (hc : Cancelled b b' ok) :
    b'.moves = moves ∧ b'.clock = b'.log.length ∧ NoGhost moves b'.log ∧
      (CancelsKept moves b'.log ↔ ok = true ∨ (moves b.clock).posts.taken ≠ 0) := by
  obtain ⟨odno, hlog⟩ := hc.log
  refine ⟨hc.moves.trans h.moves_eq, ?_, ?_, ?_⟩
  · rw [hc.clock, hlog, List.length_append, h.clock_eq]
    rfl
  · rw [hlog]
    exact each_snoc.mpr ⟨h.noGhost, nofun⟩
  · rw [hlog, CancelsKept, each_snoc, ← h.clock_eq]
    constructor
    · rintro ⟨-, hk⟩
      cases ok with
      | true => exact Or.inl rfl
      | false => exact Or.inr (hk rfl)
    · rintro hk
      refine ⟨h.kept, fun hl => ?_⟩
      obtain rfl : ok = false := hl
      exact hk.resolve_left nofun

/-- The ways a chase can end, and what the broker is left with. -/
inductive Ends (moves : ℕ → Move) (market : Market) (b : Broker) (rejected : Prop) : Prop
  | closed (live : b.live = 0) (noGhost : NoGhost moves b.log) (kept : CancelsKept moves b.log)
      (foreign : market = .kr → NoneAcknowledged moves b.log)
      (refused : rejected → NoneAccepted moves b.log)
  | ghost (live : 0 < b.live) (ghost : ¬ NoGhost moves b.log)
  | opened (noGhost : NoGhost moves b.log)
      (cause : ¬ CancelsKept moves b.log ∨ (market = .kr ∧ ¬ NoneAcknowledged moves b.log))
      (live : b.live = 0 ↔ LastFilled moves b.log) (accepted : ¬ rejected)

/-- Nothing is live and a rejection is one exactly when the broker's moves are conclusive. -/
theorem Ends.sound_iff {market : Market} {rejected : Prop} (h : Ends moves market b rejected) :
    (b.live = 0 ∧ (rejected → NoneAccepted moves b.log)) ↔ Conclusive moves market b.log := by
  cases h with
  | closed live noGhost kept foreign refused =>
    exact iff_of_true ⟨live, refused⟩
      ⟨noGhost, fun h => absurd kept h, fun hm h => absurd (foreign hm) h⟩
  | ghost live ghost =>
    exact iff_of_false (fun h => live.ne' h.1) fun h => ghost h.1
  | opened noGhost cause live accepted =>
    constructor
    · rintro ⟨hl, -⟩
      exact ⟨noGhost, fun _ => live.mp hl, fun _ _ => live.mp hl⟩
    · rintro ⟨-, hc, hk⟩
      refine ⟨live.mpr ?_, fun hr => absurd hr accepted⟩
      rcases cause with h | ⟨hm, h⟩
      · exact hc h
      · exact hk hm h

def FirstFailed (attempts : List Attempt) : Prop := (attempts.head?.bind (·.error)).isSome

theorem firstFailed_snoc {attempts : List Attempt} :
    FirstFailed (attempts ++ [att]) ↔
      (attempts = [] ∧ att.error.isSome) ∨ FirstFailed attempts := by
  cases attempts with
  | nil => simp [FirstFailed]
  | cons a attempts => simp [FirstFailed]

theorem ends_of_submit_error {n : ℕ} {attempts : List Attempt} (hc : Calm moves b)
    (hlive : b.live = 0) (hpos : 0 < remaining)
    (hforeign : p.market = .kr → NoneAcknowledged moves b.log)
    (hfirst : attempts = [] → NoneAcknowledged moves b.log) (hok : ¬ FirstFailed attempts)
    (h : p.submit n remaining b = (att, b')) (herr : att.error.isSome) :
    Ends moves p.market b' (FirstFailed (attempts ++ [att])) := by
  obtain ⟨es, b₁, hes, hcase⟩ := submit_trace hlive hpos h
  have hc₁ := hc.passive hes
  have hnil : FirstFailed (attempts ++ [att]) → attempts = [] := fun hf =>
    ((firstFailed_snoc.mp hf).resolve_right hok).1
  rcases hcase with ⟨rfl, -⟩ | ⟨hord, hiff⟩
  · refine .closed (by rw [hes.live, hlive, Nat.zero_sub]) hc₁.noGhost hc₁.kept
      (fun hm => (hforeign hm).passive hes) fun hf => ?_
    exact noneAccepted_iff.mpr ⟨(hfirst (hnil hf)).passive hes, hc₁.noGhost⟩
  · have hraised : (moves b₁.clock).posts.odno.isOk = false := by
      rw [← hc₁.moves_eq, ← Bool.not_eq_true]
      intro hok
      simp [hiff.mpr hok] at herr
    obtain ⟨odno, hlog⟩ := hord.log
    have hlive' := hord.live
    rw [hc₁.moves_eq] at hlive'
    rcases Nat.eq_zero_or_pos (moves b₁.clock).posts.taken with htaken | htaken
    · rw [htaken, Nat.zero_mul] at hlive'
      have hc' := hc₁.ordered hord fun _ => htaken
      have hack : NoneAcknowledged moves b₁.log → NoneAcknowledged moves b'.log := by
        intro ha
        rw [hlog]
        exact each_snoc.mpr ⟨ha, fun _ => by rwa [← hc₁.clock_eq]⟩
      refine .closed hlive' hc'.noGhost hc'.kept (fun hm => hack ((hforeign hm).passive hes))
        fun hf => ?_
      exact noneAccepted_iff.mpr ⟨hack ((hfirst (hnil hf)).passive hes), hc'.noGhost⟩
    · refine .ghost (by rw [hlive']; exact Nat.mul_pos htaken (by omega)) fun hg => ?_
      rw [hlog] at hg
      have hnone := (each_snoc.mp hg).2 trivial (by rwa [← hc₁.clock_eq])
      rw [← hc₁.clock_eq] at hnone
      exact htaken.ne' hnone

/-- An order was placed without an error; it is live as a whole and the last one so far. -/
structure Acknowledged (moves : ℕ → Move) (b : Broker) (qty : ℤ) : Prop where
  calm : Calm moves b
  live : b.live = qty.toNat
  placed : ∃ before odno, b.log = before ++ [.order qty odno] ∧
    (moves before.length).posts.odno.isOk = true
  last : ∀ after, (∀ e ∈ after, ¬ e.IsOrder) →
    (LastFilled moves (b.log ++ after) ↔ qty.toNat ≤ fills moves b.clock after.length)

theorem acknowledged_of_submit {n : ℕ} (hr : Ready p b remaining) (hc : Calm moves b)
    (hpos : 0 < remaining) (hs : p.submit n remaining b = (att, b')) (herr : att.error = none) :
    Acknowledged moves b' remaining := by
  obtain ⟨es, b₁, hes, hcase⟩ := submit_trace hr.live hpos hs
  obtain ⟨hord, hiff⟩ : Ordered b₁ b' remaining ∧
      (att.error = none ↔ (b₁.moves b₁.clock).posts.odno.isOk = true) := by
    refine hcase.resolve_left ?_
    rintro ⟨-, he⟩
    rw [herr] at he
    cases he
  have hc₁ := hc.passive hes
  have hplaced : (moves b₁.clock).posts.odno.isOk = true := by
    rw [← hc₁.moves_eq]
    exact hiff.mp herr
  obtain ⟨odno, hlog⟩ := hord.log
  refine ⟨hc₁.ordered hord fun h => by simp [hplaced] at h, ?_, ⟨b₁.log, odno, hlog, ?_⟩, ?_⟩
  · rw [hord.live, hc₁.moves_eq, taken_of_isOk hplaced, Nat.one_mul]
  · rwa [← hc₁.clock_eq]
  · intro after ha
    rw [hlog, List.append_assoc, List.singleton_append, lastFilled_iff ha, hord.clock, hc₁.clock_eq]

theorem Acknowledged.not_none (h : Acknowledged moves b remaining) (after : List Event) :
    ¬ NoneAcknowledged moves (b.log ++ after) := by
  obtain ⟨before, odno, hlog, hplaced⟩ := h.placed
  intro ha
  have hraised := ha before.length (.order remaining odno) (by rw [hlog]; simp) trivial
  rw [hplaced] at hraised
  cases hraised

/-- A chase that leaves its last order to itself ends with what the polls have not filled. -/
theorem Acknowledged.ends_left (h : Acknowledged moves b remaining) (hes : Passive b b' es)
    {rejected : Prop} (hrej : ¬ rejected) (hm : p.market = .kr) :
    Ends moves p.market b' rejected := by
  have hc := h.calm.passive hes
  refine .opened hc.noGhost (Or.inr ⟨hm, ?_⟩) ?_ hrej
  · rw [hes.log]
    exact h.not_none es
  · rw [hes.log, h.last es hes.not_isOrder, hes.live, h.live, h.calm.moves_eq]
    omega

/-- A chase whose last cancel was lost ends with what was not filled by the last balance read. -/
theorem Acknowledged.ends_lost {ok ok' : Bool} {b₂ b₃ : Broker} (h : Acknowledged moves b remaining)
    (hes : Passive b b₂ es) (hcan : Cancelled b₂ b₃ ok) (hread : Passive b₃ b' [.held ok'])
    {rejected : Prop} (hrej : ¬ rejected) {market : Market}
    (hk : ¬ (ok = true ∨ (moves b₂.clock).posts.taken ≠ 0)) : Ends moves market b' rejected := by
  have hc₂ := h.calm.passive hes
  obtain ⟨hmoves₃, hclock₃, hghost₃, hkept₃⟩ := hc₂.cancelled hcan
  obtain ⟨odno, hlog₃⟩ := hcan.log
  refine .opened ?_ (Or.inl ?_) ?_ hrej
  · rw [hread.log]
    exact each_append_of_forall (fun e he _ ho => absurd ho (hread.not_isOrder e he)) hghost₃
  · intro hkept
    rw [hread.log] at hkept
    exact hk (hkept₃.mp (each_snoc.mp hkept).1)
  · have hafter : ∀ e ∈ es ++ [Event.cancel odno ok] ++ [Event.held ok'], ¬ e.IsOrder := by
      intro e he
      simp only [List.mem_append, List.mem_singleton] at he
      rcases he with (he | rfl) | rfl
      · exact hes.not_isOrder e he
      · exact id
      · exact id
    have hlog : b'.log = b.log ++ (es ++ [.cancel odno ok] ++ [.held ok']) := by
      rw [hread.log, hlog₃, hes.log]
      simp only [List.append_assoc]
    have hfill : fills moves b.clock (es ++ [Event.cancel odno ok] ++ [Event.held ok']).length =
        fills moves b.clock es.length + (moves b₂.clock).fill + fills moves b₃.clock 1 := by
      rw [List.length_append, List.length_append, fills_add, fills_add, hcan.clock, hes.clock]
      simp [fills, Nat.add_assoc]
    rw [hlog, h.last _ hafter, hfill, hread.live, hcan.live, hc₂.moves_eq, if_neg hk, hes.live,
      h.live, h.calm.moves_eq, hmoves₃]
    simp only [List.length_singleton]
    omega

/-- A round with an accepted order goes on only when nothing of it is left, and ends otherwise with
what the broker has not filled. -/
theorem ends_of_follow {n : ℕ} {more : Bool} {remaining' : ℤ} (hr : Ready p b remaining)
    (hc : Calm moves b) (hpos : 0 < remaining) {b₀ : Broker}
    (hs : p.submit n remaining b = (att, b₀)) (herr : att.error = none)
    (hf : p.follow att b₀ = ((more, remaining', att'), b')) :
    (more = true → p.market = .us ∧ Calm moves b' ∧ Ready p b' remaining' ∧ 0 < remaining') ∧
      (more = false → ∀ rejected : Prop, ¬ rejected → Ends moves p.market b' rejected) := by
  have ha := acknowledged_of_submit hr hc hpos hs herr
  have hplaced := (submit_spec hr hs).2 herr
  obtain ⟨hsafe, hready⟩ := follow_spec hplaced hf
  obtain ⟨-, es, b₂, hes, hstop⟩ := follow_trace hf
  have hc₂ := ha.calm.passive hes
  rcases hstop with ⟨rfl, rfl, hstop⟩ | ⟨ok, b₃, ok', hus, hcan, hread, hmore⟩
  · refine ⟨nofun, fun _ rejected hrej => ?_⟩
    by_cases hm : p.market = .kr
    · exact ha.ends_left hes hrej hm
    · have hle : remaining' ≤ 0 := hstop.resolve_left hm
      have htotal := hsafe.total
      have hseen := hsafe.seen
      exact .closed (by omega) hc₂.noGhost hc₂.kept (fun h => absurd h hm)
        (fun h => absurd h hrej)
  · have hnotkr : p.market ≠ .kr := by rw [hus]; exact nofun
    by_cases hk : ok = true ∨ (moves b₂.clock).posts.taken ≠ 0
    · obtain ⟨hmoves₃, hclock₃, hghost₃, hkept₃⟩ := hc₂.cancelled hcan
      have hc₃ : Calm moves b₃ := ⟨hmoves₃, hclock₃, hghost₃, hkept₃.mpr hk⟩
      have hc' := hc₃.passive hread
      have hlive' : b'.live = 0 := by
        rw [hread.live, hcan.live, hc₂.moves_eq, if_pos hk, Nat.zero_sub]
      refine ⟨fun hm => ⟨hus, hc', hready hm, (hmore hm).2⟩, fun _ rejected hrej => ?_⟩
      exact .closed hlive' hc'.noGhost hc'.kept (fun h => absurd h hnotkr) (fun h => absurd h hrej)
    · refine ⟨fun hm => absurd (Or.inl (hmore hm).1) hk, fun _ rejected hrej => ?_⟩
      exact ha.ends_lost hes hcan hread hrej hk

theorem rounds_ends {k n : ℕ} {attempts attempts' : List Attempt} {remaining' : ℤ}
    (hr : Ready p b remaining) (hc : Calm moves b) (hpos : 0 < remaining)
    (hforeign : p.market = .kr → NoneAcknowledged moves b.log)
    (hfirst : attempts = [] → NoneAcknowledged moves b.log) (hok : ¬ FirstFailed attempts)
    (h : p.rounds k n remaining attempts b = ((remaining', attempts'), b')) :
    Ends moves p.market b' (FirstFailed attempts') := by
  induction k generalizing n remaining attempts b with
  | zero =>
    obtain ⟨he, rfl⟩ := Prod.mk.inj h
    obtain ⟨-, rfl⟩ := Prod.mk.inj he
    exact .closed hr.live hc.noGhost hc.kept hforeign fun hf => absurd hf hok
  | succ k ih =>
    unfold Chase.rounds at h
    rcases hs : p.submit n remaining b with ⟨att, b₁⟩
    simp only [hs] at h
    split_ifs at h with herr
    · obtain ⟨he, rfl⟩ := Prod.mk.inj h
      obtain ⟨-, rfl⟩ := Prod.mk.inj he
      exact ends_of_submit_error hc hr.live hpos hforeign hfirst hok hs herr
    · have hnone : att.error = none := by simpa using herr
      rcases hf : p.follow att b₁ with ⟨⟨more, remaining₁, att₁⟩, b₂⟩
      have hatt : ¬ FirstFailed (attempts ++ [att₁]) := by
        rw [firstFailed_snoc, (follow_trace hf).1, hnone]
        simpa using hok
      obtain ⟨hgo, hstop⟩ := ends_of_follow hr hc hpos hs hnone hf
      cases more with
      | false =>
        simp only [hf] at h
        obtain ⟨he, rfl⟩ := Prod.mk.inj h
        obtain ⟨-, rfl⟩ := Prod.mk.inj he
        exact hstop rfl _ hatt
      | true =>
        simp only [hf] at h
        obtain ⟨hus, hc₂, hr₂, hpos₂⟩ := hgo rfl
        exact ih hr₂ hc₂ hpos₂ (fun hm => by rw [hus] at hm; cases hm) (by simp) hatt h

theorem Ends.imp {market : Market} {rejected rejected' : Prop} (h : Ends moves market b rejected)
    (hi : rejected' → rejected) : Ends moves market b rejected' := by
  cases h with
  | closed live noGhost kept foreign refused =>
    exact .closed live noGhost kept foreign (refused ∘ hi)
  | ghost live ghost => exact .ghost live ghost
  | opened noGhost cause live accepted => exact .opened noGhost cause live (accepted ∘ hi)

theorem noneAcknowledged_of_no_order (h : ∀ e ∈ log, ¬ e.IsOrder) : NoneAcknowledged moves log :=
  fun _ e hi ho => absurd ho (h e (List.mem_of_getElem? hi))

theorem ends_of_no_order {market : Market} {rejected : Prop} (hc : Calm moves b)
    (hlive : b.live = 0) (hno : ∀ e ∈ b.log, ¬ e.IsOrder) : Ends moves market b rejected :=
  .closed hlive hc.noGhost hc.kept (fun _ => noneAcknowledged_of_no_order hno)
    fun _ => noneAccepted_iff.mpr ⟨noneAcknowledged_of_no_order hno, hc.noGhost⟩

theorem firstFailed_of_rejected {qty : ℤ} {attempts : List Attempt}
    (h : statusOf qty remaining attempts = .rejected) : FirstFailed attempts := by
  unfold statusOf at h
  split_ifs at h with _ _ hf
  exact hf

theorem placeAndChase_ends {market : Market} {qty : ℤ} {refPrice : Option ℚ}
    {exchange : Option String} {maxAttempts window : ℤ} {held : ℚ} {r : Except String Result}
    (hqty : 0 < qty) (hq : Quiet side (.opening moves held) b es) (hes : ∀ e ∈ es, ¬ e.IsOrder)
    (hc : Calm moves b)
    (h : placeAndChase market side qty refPrice exchange maxAttempts window b = (r, b')) :
    Ends moves market b' (∃ res, r = .ok res ∧ res.status = .rejected) := by
  unfold placeAndChase at h
  rcases hopen : openingQuote market side refPrice exchange b with ⟨e | ⟨px0, exch⟩, b₀⟩
  all_goals
    obtain ⟨es₀, hq₀, hes₀⟩ := openingQuote_spec hopen
    obtain ⟨es₀', hp₀⟩ := passive_openingQuote hopen
    have hes₁ : ∀ e ∈ es ++ es₀, ¬ e.IsOrder := fun e he =>
      (List.mem_append.mp he).elim (hes e) (not_isOrder_of_quote hes₀ e)
    simp only [hopen] at h
  · obtain ⟨rfl, rfl⟩ := Prod.mk.inj h
    obtain ⟨-, hlive, hno⟩ := (hq.trans hq₀).of_opening hes₁
    exact ends_of_no_order (hc.passive hp₀) hlive hno
  rcases hheld : b₀.heldQty side with ⟨e | base, b₁⟩
  all_goals
    obtain ⟨hq₁, hbase⟩ := heldQty_spec hheld
    have hc₁ := (hc.passive hp₀).passive (passive_heldQty hheld)
    obtain ⟨hexec, hlive, hno⟩ := ((hq.trans hq₀).trans hq₁).of_opening fun e he =>
      (List.mem_append.mp he).elim (hes₁ e)
        (not_isOrder_of_held (fun e he => ⟨_, List.mem_singleton.mp he⟩) e)
    simp only [hheld] at h
  · obtain ⟨rfl, rfl⟩ := Prod.mk.inj h
    exact ends_of_no_order hc₁ hlive hno
  let p : Chase := ⟨market, side, qty, px0, exch, base, window.toNat⟩
  have hready : Ready p b₁ qty := by
    refine ⟨?_, hlive, by simp [hexec, p], hqty.le, guarded_of_no_order hno, Or.inl hno⟩
    unfold Tracks
    cases side with
    | buy => simp [hexec, hbase base rfl, p]
    | sell => simp [hexec, hbase base rfl, p]
  rcases hrounds : p.rounds (roundCount maxAttempts market) 0 qty [] b₁ with
    ⟨⟨remaining, attempts⟩, b₂⟩
  have hends := rounds_ends hready hc₁ hqty (fun _ => noneAcknowledged_of_no_order hno)
    (fun _ => noneAcknowledged_of_no_order hno) (by simp [FirstFailed]) hrounds
  simp only [p] at hrounds
  rw [hrounds] at h
  obtain ⟨rfl, rfl⟩ := Prod.mk.inj h
  refine hends.imp ?_
  rintro ⟨res, ⟨⟩, hstatus⟩
  exact firstFailed_of_rejected hstatus

theorem calm_opening (moves : ℕ → Move) (held : ℚ) : Calm moves (.opening moves held) :=
  ⟨rfl, rfl, each_nil _, each_nil _⟩

end QuantTrader.Kis
