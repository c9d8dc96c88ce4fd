import QuantTrader.Kis.NoOverfill

/-! # The totals a chase observes

Every holding read while an order is chased tells a cumulative filled total,
which never falls, however the floats round. The totals of a call are listed round
by round. `_poll_fill` starts each round from zero, so a round without a reading
reports nothing filled, whatever the rounds before it have read.
-/

namespace QuantTrader.Kis

open Ledger (Side)

variable {side : Side} {base : ℚ} {b b' : Broker} {qty remaining remaining' : ℤ} {p : Chase}
  {att att' : Attempt}

section

variable [FloatDiff]

/-! ## The totals read -/

/-- The total of a reading, if it succeeds. -/
def readTotal : Except String ℤ → List ℤ
  | .ok f => [f]
  | .error _ => []

/-- The totals that the loop of `_poll_fill` reads. -/
def pollReads (side : Side) (base : ℚ) (want : ℤ) (window : ℕ) : ℕ → ℕ → ℕ → Broker → List ℤ
  | 0, _, _, _ => []
  | fuel + 1, waited, i, b =>
    if waited < window then
      match filledSince side base b with
      | (.error _, b) => pollReads side base want window fuel (waited + pollDelay i) (i + 1) b
      | (.ok now, b) =>
        if want ≤ now then [now]
        else now :: pollReads side base want window fuel (waited + pollDelay i) (i + 1) b
    else []

namespace Chase

variable (p : Chase)

/-- The totals read after an accepted order: while polling, then once after the cancel. -/
def followReads (odno : Option String) (b : Broker) : List ℤ :=
  let polled := pollReads p.side p.base p.qty p.window p.window 0 0 b
  let (filledTotal, b) := pollFill p b
  if p.qty - filledTotal ≤ 0 ∨ p.market = .kr then polled
  else
    let (_, b) := b.cancelOrder p.side odno
    polled ++ readTotal (filledSince p.side p.base b).1

/-- The totals read in each of the rounds that are left, for the rounds with an accepted order. -/
def roundReads : ℕ → ℕ → ℤ → Broker → List (List ℤ)
  | 0, _, _, _ => []
  | k + 1, n, remaining, b =>
    match p.submit n remaining b with
    | (att, b) =>
      if att.error.isSome then []
      else
        p.followReads att.odno b ::
          match p.follow att b with
          | ((true, remaining, _), b) => roundReads k (n + 1) remaining b
          | ((false, _, _), _) => []

end Chase

/-- The totals read during a call, round by round. -/
def chaseReads (market : Market) (side : Side) (qty : ℤ) (refPrice : Option ℚ)
    (exchange : Option String) (maxAttempts confirmWindow : ℤ) (b : Broker) : List (List ℤ) :=
  match openingQuote market side refPrice exchange b with
  | (.error _, _) => []
  | (.ok (px0, exchange), b) =>
    match b.heldQty side with
    | (.error _, _) => []
    | (.ok base, b) =>
      let p : Chase := ⟨market, side, qty, px0, exchange, base, confirmWindow.toNat⟩
      p.roundReads (roundCount maxAttempts market) 0 qty b

/-- The total a round ends with: its last reading, or zero. -/
def lastSeen (reads : List ℤ) : ℤ := reads.getLast?.getD 0

/-- The result keeps what was read: the filled quantity covers every total up to the quantity, and
after a positive one the call is neither unfilled nor rejected. -/
structure Remembers (qty : ℤ) (reads : List (List ℤ)) (res : Result) : Prop where
  filledQty : ∀ t ∈ reads.flatten, min qty t ≤ res.filledQty
  status : (∃ t ∈ reads.flatten, 0 < t) → res.status ≠ .unfilled ∧ res.status ≠ .rejected

/-- The last round has a reading, or no reading was positive. -/
def Sighted (reads : List (List ℤ)) : Prop :=
  reads.getLast? ≠ some [] ∨ ∀ t ∈ reads.flatten, t ≤ 0

instance (reads : List (List ℤ)) : Decidable (Sighted reads) := inferInstanceAs (Decidable (_ ∨ _))

/-! ## Readings only grow -/

def readings (log : List Event) : ℕ := log.count (.held true)

omit [FloatDiff] in
theorem readings_append (log es : List Event) : readings (log ++ es) = readings log + readings es :=
  List.count_append

/-- All readings between two brokers, in order, each of shares that were executed by then. -/
structure Observed (side : Side) (base : ℚ) (b b' : Broker) (reads : List ℤ) : Prop where
  executed : b.executed ≤ b'.executed
  readings : readings b'.log = readings b.log + reads.length
  sorted : reads.Pairwise (· ≤ ·)
  ge : ∀ t ∈ reads, seen side base b.executed ≤ t
  le : ∀ t ∈ reads, t ≤ seen side base b'.executed

theorem observed_nil (hle : b.executed ≤ b'.executed) (hlog : readings b'.log = readings b.log) :
    Observed side base b b' [] :=
  ⟨hle, hlog, List.Pairwise.nil, nofun, nofun⟩

theorem Observed.append {b'' : Broker} {reads reads' : List ℤ} (h : Observed side base b b' reads)
    (h' : Observed side base b' b'' reads') : Observed side base b b'' (reads ++ reads') where
  executed := h.executed.trans h'.executed
  readings := by rw [h'.readings, h.readings, List.length_append, Nat.add_assoc]
  sorted := by
    rw [List.pairwise_append]
    exact ⟨h.sorted, h'.sorted, fun t ht t' ht' => (h.le t ht).trans (h'.ge t' ht')⟩
  ge t ht := by
    rcases List.mem_append.mp ht with ht | ht
    · exact h.ge t ht
    · exact (seen_mono h.executed).trans (h'.ge t ht)
  le t ht := by
    rcases List.mem_append.mp ht with ht | ht
    · exact (h.le t ht).trans (seen_mono h'.executed)
    · exact h'.le t ht

theorem Observed.le_lastSeen {reads : List ℤ} (h : Observed side base b b' reads) {t : ℤ}
    (ht : t ∈ reads) : t ≤ lastSeen reads := by
  have hne := List.ne_nil_of_mem ht
  rw [lastSeen, List.getLast?_eq_some_getLast hne, Option.getD_some]
  exact h.sorted.rel_getLast ht

theorem observed_readTotal {r : Except String ℤ} (ht : Tracks side base b)
    (h : filledSince side base b = (r, b')) : Observed side base b b' (readTotal r) := by
  obtain ⟨hq, hf⟩ := filledSince_seen ht h
  cases r with
  | error e =>
    apply observed_nil hq.executed
    rw [hq.log, readings_append]
    rfl
  | ok f =>
    obtain rfl := hf f rfl
    refine ⟨hq.executed, ?_, List.pairwise_singleton _ _, ?_, ?_⟩
    · rw [hq.log, readings_append]
      rfl
    · simpa [readTotal] using seen_mono hq.executed
    · simp [readTotal]

theorem pollLoop_reads {want filled f : ℤ} {window fuel waited i : ℕ} (ht : Tracks side base b)
    (h : pollLoop side base want window fuel waited i filled b = (f, b')) :
    f = (pollReads side base want window fuel waited i b).getLast?.getD filled ∧
      Observed side base b b' (pollReads side base want window fuel waited i b) ∧
        Tracks side base b' := by
  induction fuel generalizing waited i filled b with
  | zero =>
    obtain ⟨rfl, rfl⟩ := Prod.mk.inj h
    exact ⟨rfl, observed_nil le_rfl rfl, ht⟩
  | succ fuel ih =>
    unfold pollLoop at h
    unfold pollReads
    split_ifs at h ⊢
    · rcases hs : filledSince side base b with ⟨now | now, b₁⟩
      all_goals
        have hread := observed_readTotal ht hs
        have ht₁ := (filledSince_seen ht hs).1.tracks base ht
        simp only [hs] at h ⊢
      · obtain ⟨hf, hobs, ht'⟩ := ih ht₁ h
        exact ⟨hf, hread.append hobs, ht'⟩
      · split_ifs at h ⊢
        · obtain ⟨rfl, rfl⟩ := Prod.mk.inj h
          exact ⟨rfl, hread, ht₁⟩
        · obtain ⟨hf, hobs, ht'⟩ := ih ht₁ h
          refine ⟨?_, hread.append hobs, ht'⟩
          rw [hf, List.getLast?_cons, Option.getD_some]
    · obtain ⟨rfl, rfl⟩ := Prod.mk.inj h
      exact ⟨rfl, observed_nil le_rfl rfl, ht⟩

/-! ## Rounds -/

omit [FloatDiff] in
theorem readings_of_order (hlog : b'.log = b.log ∨ ∃ odno, b'.log = b.log ++ [.order qty odno]) :
    readings b'.log = readings b.log := by
  rcases hlog with he | ⟨odno, he⟩
  · rw [he]
  · rw [he, readings_append]
    rfl

omit [FloatDiff] in
theorem readings_of_quote {es : List Event} (hq : Quiet side b b' es) (hes : ∀ e ∈ es, e = .quote) :
    readings b'.log = readings b.log := by
  have hzero : readings es = 0 := by
    apply List.count_eq_zero.mpr
    intro hmem
    cases hes _ hmem
  rw [hq.log, readings_append, hzero, Nat.add_zero]

theorem submit_readings {n : ℕ} (ht : Tracks p.side p.base b)
    (h : p.submit n remaining b = (att, b')) :
    Observed p.side p.base b b' [] ∧ Tracks p.side p.base b' := by
  obtain ⟨b₁, hprice, hround⟩ := Chase.submit_cases h
  obtain ⟨es, hq, hes⟩ := quiet_of_price hprice
  rcases hround with ⟨-, rfl⟩ | ⟨r, ho, -⟩
  · exact ⟨observed_nil hq.executed (readings_of_quote hq hes), hq.tracks _ ht⟩
  · obtain ⟨htracks, hle, hlog⟩ := placeOrder_log ho
    refine ⟨observed_nil (hq.executed.trans hle) ?_, htracks _ (hq.tracks _ ht)⟩
    rw [readings_of_order hlog, readings_of_quote hq hes]

omit [FloatDiff] in
theorem lastSeen_append_readTotal {reads : List ℤ} {f : ℤ} :
    lastSeen (reads ++ readTotal (.ok f)) = f := by
  simp [lastSeen, readTotal]

theorem follow_reads {more : Bool} (ht : Tracks p.side p.base b)
    (h : p.follow att b = ((more, remaining, att'), b')) :
    remaining = p.qty - lastSeen (p.followReads att.odno b) ∧
      Observed p.side p.base b b' (p.followReads att.odno b) ∧ Tracks p.side p.base b' := by
  obtain ⟨-, filledTotal, b₁, hpoll, hround⟩ := Chase.follow_cases h
  obtain ⟨hfilled, hobs, ht₁⟩ := pollLoop_reads ht hpoll
  simp only [Chase.followReads, hpoll]
  rcases hround with ⟨hstop, -, rfl, rfl⟩ | ⟨hstop, cancelled, b₂, reread, hc, hs, hend⟩
  · rw [if_pos hstop]
    exact ⟨by rw [hfilled, lastSeen], hobs, ht₁⟩
  rw [if_neg hstop]
  simp only [hc, hs]
  obtain ⟨htracks, hle, -, hlog, -⟩ := cancelOrder_spec hc
  have hcancel : Observed p.side p.base b₁ b₂ [] := by
    apply observed_nil hle
    rw [hlog, readings_append]
    rfl
  have hread := (hobs.append hcancel).append (observed_readTotal (htracks _ ht₁) hs)
  rw [List.append_nil] at hread
  refine ⟨?_, hread, (filledSince_seen (htracks _ ht₁) hs).1.tracks _ (htracks _ ht₁)⟩
  rcases hend with ⟨e, rfl, -, rfl⟩ | ⟨f, rfl, rfl, -⟩
  · rw [readTotal, List.append_nil, hfilled, lastSeen]
  · rw [lastSeen_append_readTotal]

theorem rounds_reads {k n : ℕ} {attempts attempts' : List Attempt} (ht : Tracks p.side p.base b)
    (h : p.rounds k n remaining attempts b = ((remaining', attempts'), b')) :
    Observed p.side p.base b b' (p.roundReads k n remaining b).flatten ∧
      ((p.roundReads k n remaining b = [] ∧ remaining' = remaining) ∨
        ∃ reads, (p.roundReads k n remaining b).getLast? = some reads ∧
          remaining' = p.qty - lastSeen reads) := by
  induction k generalizing n remaining attempts b with
  | zero =>
    obtain ⟨he, rfl⟩ := Prod.mk.inj h
    obtain ⟨rfl, -⟩ := Prod.mk.inj he
    exact ⟨observed_nil le_rfl rfl, Or.inl ⟨rfl, rfl⟩⟩
  | succ k ih =>
    unfold Chase.rounds at h
    unfold Chase.roundReads
    rcases hs : p.submit n remaining b with ⟨att, b₁⟩
    obtain ⟨hnone, ht₁⟩ := submit_readings ht hs
    simp only [hs] at h ⊢
    split_ifs at h ⊢ with herr
    · obtain ⟨he, rfl⟩ := Prod.mk.inj h
      obtain ⟨rfl, -⟩ := Prod.mk.inj he
      exact ⟨hnone, Or.inl ⟨rfl, rfl⟩⟩
    rcases hf : p.follow att b₁ with ⟨⟨_ | _, remaining₁, att₁⟩, b₂⟩
    all_goals
      obtain ⟨hrem, hobs, ht₂⟩ := follow_reads ht₁ hf
      simp only [hf] at h ⊢
    · -- the chase ends with this round
      obtain ⟨he, rfl⟩ := Prod.mk.inj h
      obtain ⟨rfl, -⟩ := Prod.mk.inj he
      exact ⟨by simpa using hnone.append hobs, Or.inr ⟨_, rfl, hrem⟩⟩
    · -- it goes on: a later round overrides this one
      obtain ⟨hobs', hend⟩ := ih ht₂ h
      refine ⟨(hnone.append hobs).append hobs', Or.inr ?_⟩
      rcases hend with ⟨hnil, rfl⟩ | ⟨reads, hlast, hrem'⟩
      · exact ⟨_, by rw [hnil]; rfl, hrem⟩
      · exact ⟨reads, by rw [List.getLast?_cons, hlast, Option.getD_some], hrem'⟩

/-! ## The whole call -/

omit [FloatDiff] in
theorem statusOf_of_pos {attempts : List Attempt} (h : 0 < qty - remaining) :
    statusOf qty remaining attempts ≠ .unfilled ∧ statusOf qty remaining attempts ≠ .rejected := by
  unfold statusOf
  split_ifs <;> exact ⟨nofun, nofun⟩

omit [FloatDiff] in
theorem submit_nonpos {n : ℕ} (hle : remaining ≤ 0) : (p.submit n remaining b).1.error.isSome := by
  unfold Chase.submit
  cases p.market with
  | kr =>
    simp only [Broker.placeOrder, if_pos hle]
    rfl
  | us =>
    rcases hp : p.price n b with ⟨e | _ | px, b₁⟩
    all_goals simp only [Broker.placeOrder, if_pos hle]
    all_goals rfl

theorem roundReads_nonpos {k n : ℕ} (hle : remaining ≤ 0) : p.roundReads k n remaining b = [] := by
  cases k with
  | zero => rfl
  | succ k =>
    unfold Chase.roundReads
    dsimp only
    rw [if_pos (submit_nonpos hle)]

theorem chaseReads_nonpos {market : Market} {refPrice : Option ℚ} {exchange : Option String}
    {maxAttempts window : ℤ} (hqty : qty ≤ 0) :
    chaseReads market side qty refPrice exchange maxAttempts window b = [] := by
  unfold chaseReads
  rcases openingQuote market side refPrice exchange b with ⟨e | ⟨px0, exch⟩, b₀⟩
  · rfl
  · rcases hheld : b₀.heldQty side with ⟨e | base, b₁⟩
    · simp only [hheld]
    · simp only [hheld, roundReads_nonpos hqty]

/-- What a call reports: the total of the last reading of its last round. -/
theorem placeAndChase_reads {market : Market} {refPrice : Option ℚ} {exchange : Option String}
    {maxAttempts window : ℤ} {moves : ℕ → Move} {held : ℚ} {res : Result}
    (h : placeAndChase market side qty refPrice exchange maxAttempts window
      (.opening moves held) = (.ok res, b)) :
    ∃ reads base b₁ remaining, chaseReads market side qty refPrice exchange maxAttempts window
        (.opening moves held) = reads ∧
      readings b₁.log = 1 ∧ Observed side base b₁ b reads.flatten ∧ res.filledQty = qty - remaining ∧
      res.status = statusOf qty remaining res.attempts ∧
      (reads = [] ∨ ∃ last, reads.getLast? = some last ∧ res.filledQty = lastSeen last) := by
  unfold placeAndChase at h
  unfold chaseReads
  rcases hopen : openingQuote market side refPrice exchange (.opening moves held) with
    ⟨e | ⟨px0, exch⟩, b₀⟩
  · simp only [hopen] at h
    cases h
  simp only [hopen] at h ⊢
  rcases hheld : b₀.heldQty side with ⟨e | base, b₁⟩
  · simp only [hheld] at h
    cases h
  simp only [hheld] at h ⊢
  let p : Chase := ⟨market, side, qty, px0, exch, base, window.toNat⟩
  have htracks : Tracks p.side p.base b₁ := tracks_opening hopen hheld
  have hbase : readings b₁.log = 1 := by
    obtain ⟨es, hq, hes⟩ := openingQuote_spec hopen
    rw [(heldQty_spec hheld).1.log, readings_append, readings_of_quote hq hes]
    rfl
  rcases hrounds : p.rounds (roundCount maxAttempts market) 0 qty [] b₁ with
    ⟨⟨remaining, attempts⟩, b₂⟩
  obtain ⟨hobs, hend⟩ := rounds_reads htracks hrounds
  simp only [p] at hrounds
  rw [hrounds] at h
  obtain ⟨hres, rfl⟩ := Prod.mk.inj h
  obtain rfl := Except.ok.inj hres
  refine ⟨_, base, b₁, remaining, rfl, hbase, hobs, rfl, rfl, ?_⟩
  rcases hend with ⟨hnil, -⟩ | ⟨last, hlast, rfl⟩
  · exact Or.inl hnil
  · exact Or.inr ⟨last, hlast, sub_sub_cancel _ _⟩

/-- The listed totals are all the holdings read, but for the one before the first order. -/
theorem chaseReads_complete {market : Market} {refPrice : Option ℚ} {exchange : Option String}
    {maxAttempts window : ℤ} {moves : ℕ → Move} {held : ℚ} {res : Result}
    (h : placeAndChase market side qty refPrice exchange maxAttempts window
      (.opening moves held) = (.ok res, b)) :
    readings b.log = 1 + (chaseReads market side qty refPrice exchange maxAttempts window
      (.opening moves held)).flatten.length := by
  obtain ⟨reads, base, b₁, -, rfl, hbase, hobs, -⟩ := placeAndChase_reads h
  rw [hobs.readings, hbase]

/-- A last round that reads something reads the greatest total. -/
theorem Observed.le_of_last {reads : List (List ℤ)} {last : List ℤ}
    (h : Observed side base b b' reads.flatten) (hlast : reads.getLast? = some last)
    (hne : last ≠ []) {t : ℤ} (ht : t ∈ reads.flatten) :
    t ≤ lastSeen last := by
  have hle := h.le_lastSeen ht
  obtain ⟨front, rfl⟩ := List.getLast?_eq_some_iff.mp hlast
  rwa [List.flatten_append, List.flatten_singleton, lastSeen, List.getLast?_append_of_ne_nil _ hne]
    at hle

theorem Observed.nonneg_of_last {reads : List (List ℤ)} {last : List ℤ}
    (h : Observed side base b b' reads.flatten) (hlast : reads.getLast? = some last) :
    0 ≤ lastSeen last := by
  cases hl : last.getLast? with
  | none => simp [lastSeen, hl]
  | some t =>
    have hmem : t ∈ reads.flatten :=
      List.mem_flatten.mpr ⟨last, List.mem_of_getLast? hlast, List.mem_of_getLast? hl⟩
    rw [lastSeen, hl, Option.getD_some]
    exact (seen_nonneg side base b.executed).trans (h.ge t hmem)

omit [FloatDiff] in
theorem remembers_nil {res : Result} : Remembers qty [] res := ⟨nofun, fun ⟨_, h, _⟩ => nomatch h⟩

omit [FloatDiff] in
theorem sighted_nil : Sighted [] := Or.inl nofun

/-- A result with the last total of the last round keeps what was read, unless that round read
nothing after a positive total. -/
theorem Observed.remembers_of_last_iff {reads : List (List ℤ)} {last : List ℤ} {res : Result}
    (hobs : Observed side base b b' reads.flatten) (hpos : 0 < qty) (hlast : reads.getLast? = some last)
    (hfilled : res.filledQty = lastSeen last) (hqty : res.filledQty = qty - remaining)
    (hstatus : res.status = statusOf qty remaining res.attempts) :
    Remembers qty reads res ↔ Sighted reads := by
  constructor
  · intro hrem
    by_cases hne : last = []
    · -- nothing is reported, so nothing positive may have been read
      have hzero : res.filledQty = 0 := by rw [hfilled, hne]; rfl
      apply Or.inr
      intro t ht
      have hle := hrem.filledQty t ht
      omega
    · apply Or.inl
      rw [hlast]
      exact fun he => hne (Option.some.inj he)
  · rintro (hsome | hzero)
    · have hne : last ≠ [] := by
        rintro rfl
        exact hsome hlast
      have hle : ∀ t ∈ reads.flatten, t ≤ res.filledQty := by
        intro t ht
        rw [hfilled]
        exact hobs.le_of_last hlast hne ht
      constructor
      · exact fun t ht => (min_le_right _ _).trans (hle t ht)
      · rintro ⟨t, ht, hpos⟩
        rw [hstatus]
        exact statusOf_of_pos (by have := hle t ht; omega)
    · have hnonneg : 0 ≤ res.filledQty := by
        rw [hfilled]
        exact hobs.nonneg_of_last hlast
      constructor
      · exact fun t ht => ((min_le_right _ _).trans (hzero t ht)).trans hnonneg
      · rintro ⟨t, ht, hpos⟩
        have := hzero t ht
        omega

/-- However the floats round, a call keeps what it read, unless its last round read nothing after a
positive total. -/
theorem remembers_iff (market : Market) (side : Side) (qty : ℤ) (refPrice : Option ℚ)
    (exchange : Option String) (maxAttempts window : ℤ) (moves : ℕ → Move) (held : ℚ) (res : Result)
    (h : (placeAndChase market side qty refPrice exchange maxAttempts window
      (.opening moves held)).1 = .ok res) :
    let reads := chaseReads market side qty refPrice exchange maxAttempts window (.opening moves held)
    Remembers qty reads res ↔ Sighted reads := by
  intro reads
  rcases le_or_gt qty 0 with hqty | hqty
  · have hnil : reads = [] := chaseReads_nonpos hqty
    rw [hnil]
    exact ⟨fun _ => sighted_nil, fun _ => remembers_nil⟩
  rcases hcall : placeAndChase market side qty refPrice exchange maxAttempts window
    (.opening moves held) with ⟨r, b⟩
  obtain rfl : r = .ok res := by rwa [hcall] at h
  obtain ⟨_, base, b₁, remaining, rfl, -, hobs, hfilled, hstatus, hend⟩ :=
    placeAndChase_reads hcall
  rcases hend with hnil | ⟨last, hlast, hres⟩
  · have hnil : reads = [] := hnil
    rw [hnil]
    exact ⟨fun _ => sighted_nil, fun _ => remembers_nil⟩
  exact Observed.remembers_of_last_iff hobs hqty hlast hres hfilled hstatus

end

/-- Five shares fill in the first round; from the second order on no call succeeds. -/
def blindRound : ℕ → Move := fun n =>
  { fill := if n = 2 then 5 else 0
    raised := if 7 ≤ n then some "ReadTimeout" else none
    posts := if 7 ≤ n then PostRetry.timedOutPosts false
      else PostRetry.acknowledgedPosts (toString n)
    price := some 100
    exchange := some "NASD" }

/-- Five shares are read as filled, and the call reports an unfilled order. -/
theorem blindRound_forgets :
    ∃ res, (placeAndChase .us .buy 10 (some 100) (some "NASD") 3 2 (.opening blindRound 0)).1 =
        .ok res ∧
      res.status = .unfilled ∧ res.filledQty = 0 ∧
      (chaseReads .us .buy 10 (some 100) (some "NASD") 3 2 (.opening blindRound 0)) =
        [[5, 5], []] ∧
      ¬ Remembers 10
        (chaseReads .us .buy 10 (some 100) (some "NASD") 3 2 (.opening blindRound 0)) res := by
  have hreads : chaseReads .us .buy 10 (some 100) (some "NASD") 3 2 (.opening blindRound 0) =
      [[5, 5], []] := by decide +kernel
  refine ⟨_, rfl, by decide +kernel, by decide +kernel, hreads, ?_⟩
  rw [hreads]
  intro h
  have hle := h.filledQty 5 (by decide)
  revert hle
  decide +kernel

theorem remembers_iff_twoRounds :
    ∃ res, (placeAndChase .us .buy 10 (some 100) (some "NASD") 3 5 (.opening twoRounds 0)).1 =
        .ok res ∧
      (Remembers 10 (chaseReads .us .buy 10 (some 100) (some "NASD") 3 5 (.opening twoRounds 0)) res ↔
        Sighted (chaseReads .us .buy 10 (some 100) (some "NASD") 3 5 (.opening twoRounds 0))) :=
  ⟨_, rfl, remembers_iff .us .buy 10 (some 100) (some "NASD") 3 5 twoRounds 0 _ rfl⟩

end QuantTrader.Kis
