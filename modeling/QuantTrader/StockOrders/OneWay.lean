import QuantTrader.StockOrders.Executor

/-! # Manual orders move one way

An order is claimed once, so it is handed over at most once, and never after a
cancellation. Its outcome is final in every run in which orphan recovery
declares no order dead that an executor still works on.
-/

namespace QuantTrader.StockOrders

open Kis (Market Result)

open Ledger (Side)

open Transition

/-- The status of an order that some executor took. -/
def Status.Taken (st : Status) : Prop := st ≠ .pending ∧ st ≠ .canceled

/-- An outcome. -/
def Status.Final (st : Status) : Prop := st = .filled ∨ st = .failed ∨ st = .canceled

theorem Verdict.status_taken (v : Verdict) : v.status.Taken := by
  cases v <;> exact ⟨nofun, nofun⟩

namespace World

variable (s : World) {p id : ℕ} {st : Status}

@[simp] theorem setProc_rows (proc : Proc) : (s.setProc p proc).rows = s.rows := rfl
theorem setProc_procs (p' : ℕ) (proc : Proc) :
    (s.setProc p proc).procs p' = if p' = p then proc else s.procs p' := by
  unfold setProc
  by_cases h : p' = p
  · subst h; simp
  · simp [h]

theorem setProc_order (p' : ℕ) (proc : Proc) :
    ((s.setProc p proc).procs p').order = if p' = p then proc.order else (s.procs p').order := by
  rw [setProc_procs, apply_ite Proc.order]

theorem row_update (c : Row → Bool) (st : Status) (d : Row → Option Detail) :
    (s.update c st d).row id = (s.row id).map fun r =>
      if c r then { r with status := st, detail := d r, updatedAt := s.now } else r := by
  unfold row update
  dsimp only
  rw [List.find?_map]
  congr 2
  funext r
  simp only [Function.comp_apply]
  split_ifs <;> rfl

theorem row_mem {r : Row} (h : s.row id = some r) : r ∈ s.rows ∧ r.id = id :=
  ⟨List.mem_of_find?_eq_some h, by simpa using List.find?_some h⟩

theorem status_update (c : Row → Bool) (st : Status) (d : Row → Option Detail) :
    (s.update c st d).status id = (s.row id).map fun r => if c r then st else r.status := by
  unfold status
  rw [row_update, Option.map_map]
  congr 1
  funext r
  simp only [Function.comp_apply]
  split_ifs <;> rfl

theorem status_update_of_not (c : Row → Bool) (st' : Status) (d : Row → Option Detail)
    (hc : ∀ r, s.row id = some r → c r = true → r.status ≠ st) (h : s.status id = some st) :
    (s.update c st' d).status id = some st := by
  obtain ⟨r, hr, rfl⟩ := Option.map_eq_some_iff.mp h
  rw [status_update, hr, Option.map_some]
  by_cases hcr : c r = true
  · exact absurd rfl (hc r hr hcr)
  · rw [if_neg hcr]

@[simp] theorem ids_update (c : Row → Bool) (st : Status) (d : Row → Option Detail) :
    (s.update c st d).rows.map Row.id = s.rows.map Row.id := by
  unfold update
  rw [List.map_map]
  apply List.map_congr_left
  intro r _
  simp only [Function.comp_apply]
  split_ifs <;> rfl

/-- Some executor took the order. -/
def Taken (id : ℕ) : Prop := ∃ st, s.status id = some st ∧ st.Taken

theorem taken_update (c : Row → Bool) (d : Row → Option Detail) (hst : st.Taken)
    (h : s.Taken id) : (s.update c st d).Taken id := by
  obtain ⟨st', hs, ht⟩ := h
  obtain ⟨r, hr, rfl⟩ := Option.map_eq_some_iff.mp hs
  refine ⟨if c r then st else r.status, by rw [status_update, hr, Option.map_some], ?_⟩
  split_ifs
  · exact hst
  · exact ht

theorem taken_cancel (orderId : ℕ) (acct : String) (h : s.Taken id) :
    (s.cancel orderId acct).Taken id := by
  obtain ⟨st, hs, ht⟩ := h
  refine ⟨st, s.status_update_of_not _ _ _ ?_ hs, ht⟩
  rintro r - hc rfl
  exact ht.1 (of_decide_eq_true hc).2.2

theorem status_create (id' : ℕ) (acct : String) (market : Market) (symbol : String) (side : Side)
    (size : Size) (scheduledAt : ℕ) (h : s.status id = some st) :
    (s.create id' acct market symbol side size scheduledAt).status id = some st := by
  obtain ⟨r, hr, rfl⟩ := Option.map_eq_some_iff.mp h
  unfold status row create
  rw [List.find?_append]
  unfold row at hr
  rw [hr]
  rfl

end World

/-! ## Claimed once -/

section Steps

variable {s : World} {e : Event} {p id : ℕ} {st : Status}

theorem row_of_mem {r : Row} (hs : (s.rows.map Row.id).Pairwise (· < ·)) (hr : r ∈ s.rows) :
    s.row r.id = some r := by
  obtain ⟨r', hr'⟩ : ∃ r', s.row r.id = some r' := by
    apply Option.isSome_iff_exists.mp
    unfold World.row
    rw [List.find?_isSome]
    exact ⟨r, hr, by simp⟩
  have hm := s.row_mem hr'
  have hinj : Set.InjOn Row.id {r | r ∈ s.rows} :=
    List.inj_on_of_nodup_map (hs.imp ne_of_lt)
  rw [hr', hinj hm.1 hr hm.2]

theorem status_of_first {locked : List ℕ} {r : Row} (hs : (s.rows.map Row.id).Pairwise (· < ·))
    (h : s.First locked r) : s.status r.id = some .pending := by
  unfold World.status
  rw [row_of_mem hs h.1, Option.map_some, h.2.1.1]

/-- A process works on the order it worked on before, or on one it has just claimed. -/
theorem order_next (he : e.Enabled s) (h : ((e.next s).procs p).order = some id) :
    (s.procs p).order = some id ∨ ∃ locked row, e = .claim p locked row ∧ row.id = id := by
  cases e with
  | wait | create | cancel | claimLost => exact Or.inl h
  | start p' | crash p' | finishLost p' | finish p' | recover p' =>
    left
    simp only [Event.next, World.setProc_order] at h
    split_ifs at h
    · cases h
    · exact h
  | claim p' locked row =>
    simp only [Event.next, World.setProc_order] at h
    split_ifs at h with hp
    · subst hp
      exact Or.inr ⟨locked, row, rfl, Option.some.inj h⟩
    · exact Or.inl h
  | chased p' row q ref answer =>
    left
    simp only [Event.next, World.setProc_order] at h
    split_ifs at h with hp
    · subst hp
      rw [show s.procs p = .chasing row q ref from he]
      exact h
    · exact h
  | resolve p' row quote close =>
    left
    have ho : ∀ r, ((Event.resolved s p' row r).procs p).order =
        if p = p' then some row.id else (s.procs p).order := by
      rintro (e | ⟨q, ref, exch⟩)
      · exact s.setProc_order p _
      · exact s.setProc_order p _
    simp only [Event.next, ho] at h
    split_ifs at h with hp
    · subst hp
      rw [show s.procs p = .claimed row from he]
      exact h
    · exact h

theorem claimed_next {row : Row} (h : (e.next s).procs p = .claimed row) :
    s.procs p = .claimed row ∨ ∃ locked, e = .claim p locked row := by
  cases e with
  | wait | create | cancel | claimLost => exact Or.inl h
  | start p' | crash p' | finishLost p' | finish p' | recover p' | chased p' =>
    left
    simp only [Event.next, World.setProc_procs] at h
    split_ifs at h
    exact h
  | claim p' locked row' =>
    simp only [Event.next, World.setProc_procs] at h
    split_ifs at h with hp
    · subst hp
      exact Or.inr ⟨locked, by rw [Proc.claimed.inj h]⟩
    · exact Or.inl h
  | resolve p' row' quote close =>
    left
    simp only [Event.next] at h
    cases hr : resolve row'.size quote close with
    | error e =>
      simp only [hr, Event.resolved, World.setProc_procs] at h
      split_ifs at h
      exact h
    | ok r =>
      simp only [hr, Event.resolved, World.setProc_procs] at h
      split_ifs at h
      exact h

/-- Orders are handed over by `resolve` only. -/
theorem handed_next : (e.next s).handed = s.handed ∨
    ∃ p row quote close q ref, e = .resolve p row quote close ∧
      (e.next s).handed = s.handed ++ [row.id] ∧ (e.next s).procs p = .chasing row q ref := by
  cases e with
  | resolve p row quote close =>
    simp only [Event.next]
    cases resolve row.size quote close with
    | error e => exact Or.inl rfl
    | ok r =>
      obtain ⟨q, ref, exch⟩ := r
      exact Or.inr ⟨p, row, quote, close, q, ref, rfl, rfl, Function.update_self ..⟩
  | _ => exact Or.inl rfl

theorem taken_next (h : s.Taken id) : (e.next s).Taken id := by
  cases e with
  | wait | start | crash | chased | finishLost => exact h
  | create =>
    obtain ⟨st, hs, ht⟩ := h
    exact ⟨st, s.status_create _ _ _ _ _ _ _ hs, ht⟩
  | cancel => exact s.taken_cancel _ _ h
  | recover => exact s.taken_update _ _ ⟨nofun, nofun⟩ h
  | claim | claimLost => exact s.taken_update _ _ ⟨nofun, nofun⟩ h
  | resolve p row quote close =>
    simp only [Event.next]
    cases resolve row.size quote close <;> exact h
  | finish p orderId verdict => exact s.taken_update _ _ verdict.status_taken h

/-- What every run keeps. -/
structure Inv (s : World) : Prop where
  sorted : (s.rows.map Row.id).Pairwise (· < ·)
  taken : ∀ p id, (s.procs p).order = some id → s.Taken id
  owner : ∀ p p' id, (s.procs p).order = some id → (s.procs p').order = some id → p = p'
  handed_nodup : s.handed.Nodup
  handed_taken : ∀ id ∈ s.handed, s.Taken id
  claimed_new : ∀ p row, s.procs p = .claimed row → row.id ∉ s.handed

theorem not_taken_of_first {locked : List ℕ} {r : Row} (hs : (s.rows.map Row.id).Pairwise (· < ·))
    (h : s.First locked r) : ¬ s.Taken r.id := by
  rintro ⟨st, hst, ht⟩
  rw [status_of_first hs h] at hst
  exact ht.1 (Option.some.inj hst).symm

theorem taken_claim {locked : List ℕ} {r : Row} (hs : (s.rows.map Row.id).Pairwise (· < ·))
    (h : s.First locked r) : (s.claim r).Taken r.id := by
  refine ⟨.placed, ?_, nofun, nofun⟩
  unfold World.claim
  rw [World.status_update, row_of_mem hs h.1]
  simp

theorem sorted_next (he : e.Enabled s) (hs : (s.rows.map Row.id).Pairwise (· < ·)) :
    ((e.next s).rows.map Row.id).Pairwise (· < ·) := by
  cases e with
  | wait | start | crash | chased | finishLost => exact hs
  | create id' =>
    simp only [Event.next, World.create, List.map_append, List.map_cons, List.map_nil]
    rw [List.pairwise_append]
    refine ⟨hs, List.pairwise_singleton _ _, ?_⟩
    rintro a ha b hb
    obtain ⟨r, hr, rfl⟩ := List.mem_map.mp ha
    obtain rfl := List.mem_singleton.mp hb
    exact he r hr
  | cancel | recover | claim | claimLost | finish =>
    simpa only [Event.next, World.cancel, World.recoverOrphans, World.claim, World.finish,
      World.setProc_rows, World.ids_update] using hs
  | resolve p row quote close =>
    simp only [Event.next]
    cases resolve row.size quote close <;> exact hs

theorem Inv.init : Inv World.init where
  sorted := List.Pairwise.nil
  taken _ _ h := by cases h
  owner _ _ _ h := by cases h
  handed_nodup := List.nodup_nil
  handed_taken _ h := by cases h
  claimed_new _ _ h := by cases h

theorem Inv.handed_nodup_next (h : Inv s) (he : e.Enabled s) : (e.next s).handed.Nodup := by
  rcases handed_next (s := s) (e := e) with hh | ⟨p, row, quote, close, q, ref, rfl, hh, -⟩
  · rw [hh]
    exact h.handed_nodup
  · rw [hh, List.nodup_append]
    refine ⟨h.handed_nodup, List.nodup_singleton _, ?_⟩
    rintro a ha b hb rfl
    rw [List.mem_singleton.mp hb] at ha
    exact h.claimed_new p row he ha

/-- An order that is claimed stays with its process until that one hands it over. -/
theorem Inv.claimed_new_next (h : Inv s) (he : e.Enabled s) {p : ℕ} {row : Row}
    (hold : s.procs p = .claimed row) (hc : (e.next s).procs p = .claimed row) :
    row.id ∉ (e.next s).handed := by
  rcases handed_next (s := s) (e := e) with hh | ⟨p', row', quote, close, q, ref, rfl, hh, hp⟩
  · rw [hh]
    exact h.claimed_new p row hold
  · rw [hh, List.mem_append, not_or]
    refine ⟨h.claimed_new p row hold, ?_⟩
    intro hm
    have hid := List.mem_singleton.mp hm
    -- only one process holds the order, and it has moved on
    obtain rfl : p = p' := by
      apply h.owner p p' row.id
      · rw [hold]
        rfl
      · rw [show s.procs p' = .claimed row' from he, hid]
        rfl
    rw [hp] at hc
    cases hc

theorem Inv.next (h : Inv s) (he : e.Enabled s) : Inv (e.next s) where
  sorted := sorted_next he h.sorted
  taken p id ho := by
    rcases order_next he ho with hold | ⟨locked, row, rfl, rfl⟩
    · exact taken_next (h.taken p id hold)
    · exact taken_claim h.sorted he.2
  owner p p' id ho ho' := by
    rcases order_next he ho with hold | ⟨locked, row, rfl, rfl⟩
    · rcases order_next he ho' with hold' | ⟨locked, row, rfl, rfl⟩
      · exact h.owner p p' id hold hold'
      · exact absurd (h.taken p _ hold) (not_taken_of_first h.sorted he.2)
    · rcases order_next he ho' with hold' | ⟨locked', row', heq, -⟩
      · exact absurd (h.taken p' _ hold') (not_taken_of_first h.sorted he.2)
      · exact (Event.claim.inj heq).1
  handed_nodup := h.handed_nodup_next he
  handed_taken id hm := by
    rcases handed_next (s := s) (e := e) with hh | ⟨p, row, quote, close, q, ref, rfl, hh, -⟩
    · rw [hh] at hm
      exact taken_next (h.handed_taken id hm)
    · rw [hh] at hm
      rcases List.mem_append.mp hm with hm | hm
      · exact taken_next (h.handed_taken id hm)
      · rw [List.mem_singleton.mp hm]
        refine taken_next (h.taken p row.id ?_)
        rw [show s.procs p = .claimed row from he]
        rfl
  claimed_new p row hc := by
    rcases claimed_next hc with hold | ⟨locked, rfl⟩
    · exact h.claimed_new_next he hold hc
    · intro hm
      exact not_taken_of_first h.sorted he.2 (h.handed_taken row.id hm)

theorem inv_of_reaches (h : system.Reaches World.init s) : Inv s :=
  h.invariant Inv.init fun _ _ hi he => hi.next he

end Steps

/-! ## Final outcomes -/

section Outcomes

variable {s : World} {e : Event} {p id : ℕ} {st : Status}

/-- Orphan recovery declares no order dead that an executor still works on. -/
def SparesLive (s : World) : Event → Prop
  | .recover _ => ∀ r ∈ s.rows, s.Orphan r → ∀ p, (s.procs p).order ≠ some r.id
  | _ => True

/-- Every order that is worked on is `PLACED`. -/
def WorkPlaced (s : World) : Prop := ∀ p id, (s.procs p).order = some id → s.status id = some .placed

theorem placed_next (h : Inv s) (he : e.Enabled s) (hl : SparesLive s e)
    (ho : (s.procs p).order = some id) (ho' : ((e.next s).procs p).order = some id)
    (hs : s.status id = some .placed) : (e.next s).status id = some .placed := by
  cases e with
  | wait | start | crash | chased | finishLost => exact hs
  | create => exact s.status_create _ _ _ _ _ _ _ hs
  | cancel =>
    refine s.status_update_of_not _ _ _ ?_ hs
    rintro r - hc hst
    rw [(of_decide_eq_true hc).2.2] at hst
    cases hst
  | recover =>
    refine s.status_update_of_not _ _ _ ?_ hs
    rintro r hr hc -
    obtain ⟨hm, rfl⟩ := s.row_mem hr
    exact hl r hm (of_decide_eq_true hc) p ho
  | claim | claimLost =>
    obtain ⟨r, hr, hst⟩ := Option.map_eq_some_iff.mp hs
    refine (s.status_update _ _ _).trans ?_
    rw [hr, Option.map_some, hst, ite_self]
  | resolve p row quote close =>
    simp only [Event.next]
    cases resolve row.size quote close <;> exact hs
  | finish p' orderId verdict detail =>
    have hp' : (s.procs p').order = some orderId := by
      rw [show s.procs p' = .finishing orderId verdict detail from he]
      rfl
    refine s.status_update_of_not _ _ _ ?_ hs
    rintro r hr hc -
    obtain ⟨-, rfl⟩ := s.row_mem hr
    obtain rfl : r.id = orderId := of_decide_eq_true hc
    obtain rfl := h.owner p p' r.id ho hp'
    simp only [Event.next, World.setProc_order, if_pos] at ho'
    cases ho'

theorem WorkPlaced.next (hw : WorkPlaced s) (h : Inv s) (he : e.Enabled s) (hl : SparesLive s e) :
    WorkPlaced (e.next s) := by
  intro p id ho
  rcases order_next he ho with hold | ⟨locked, row, rfl, rfl⟩
  · exact placed_next h he hl hold ho (hw p id hold)
  · refine (s.status_update _ _ _).trans ?_
    rw [row_of_mem h.sorted he.2.1]
    simp

/-- While every order that is worked on is `PLACED`, no event changes an outcome. -/
theorem final_next (hw : WorkPlaced s) (h : Inv s) (he : e.Enabled s) (hf : st.Final)
    (hs : s.status id = some st) : (e.next s).status id = some st := by
  have hpending : st ≠ .pending := by rintro rfl; simp [Status.Final] at hf
  have hplaced : st ≠ .placed := by rintro rfl; simp [Status.Final] at hf
  cases e with
  | wait | start | crash | chased | finishLost => exact hs
  | create => exact s.status_create _ _ _ _ _ _ _ hs
  | cancel =>
    refine s.status_update_of_not _ _ _ ?_ hs
    rintro r - hc rfl
    exact hpending (of_decide_eq_true hc).2.2
  | recover =>
    refine s.status_update_of_not _ _ _ ?_ hs
    rintro r - hc rfl
    exact hplaced (of_decide_eq_true hc).1
  | claim p locked row | claimLost p locked row =>
    refine s.status_update_of_not _ _ _ ?_ hs
    rintro r hr hc rfl
    obtain ⟨-, rfl⟩ := s.row_mem hr
    have hid : r.id = row.id := of_decide_eq_true hc
    rw [hid, status_of_first h.sorted he.2] at hs
    exact hpending (Option.some.inj hs).symm
  | resolve p row quote close =>
    simp only [Event.next]
    cases resolve row.size quote close <;> exact hs
  | finish p orderId verdict detail =>
    have ho : (s.procs p).order = some orderId := by
      rw [show s.procs p = .finishing orderId verdict detail from he]
      rfl
    refine s.status_update_of_not _ _ _ ?_ hs
    rintro r hr hc rfl
    obtain ⟨-, rfl⟩ := s.row_mem hr
    obtain rfl : r.id = orderId := of_decide_eq_true hc
    rw [hw p r.id ho] at hs
    exact hplaced (Option.some.inj hs).symm

theorem workPlaced_of_reaches (h : (system.restrict SparesLive).Reaches World.init s) :
    WorkPlaced s := by
  have hboth : Inv s ∧ WorkPlaced s := by
    apply h.invariant ⟨Inv.init, fun _ _ ho => by cases ho⟩
    rintro s e ⟨hi, hw⟩ he
    exact ⟨hi.next he.1, hw.next hi he.1 he.2⟩
  exact hboth.2

theorem final_of_allowed {es : List Event} (h : (system.restrict SparesLive).Reaches World.init s)
    (hes : (system.restrict SparesLive).Allowed s es) (hf : st.Final)
    (hs : s.status id = some st) : (system.run s es).status id = some st := by
  induction es generalizing s with
  | nil => exact hs
  | cons e es ih =>
    have hnext := final_next (workPlaced_of_reaches h) (inv_of_reaches h.of_restrict) hes.1.1 hf hs
    exact ih (h.step e hes.1) hes.2 hnext

/-- In every run an order is handed over at most once and never when it is cancelled; its outcome
is final as long as recovery spares the orders that executors work on. -/
theorem orders_one_way (h : system.Reaches World.init s) :
    s.handed.Nodup ∧ (∀ id ∈ s.handed, s.status id ≠ some .canceled) ∧
      ((system.restrict SparesLive).Reaches World.init s →
        ∀ es, (system.restrict SparesLive).Allowed s es → ∀ id st, Status.Final st →
          s.status id = some st → (system.run s es).status id = some st) := by
  have hi := inv_of_reaches h
  refine ⟨hi.handed_nodup, ?_, ?_⟩
  · intro id hm hc
    obtain ⟨st, hst, ht⟩ := hi.handed_taken id hm
    rw [hc] at hst
    exact ht.2 (Option.some.inj hst).symm
  · intro hr es hes id st hf hs
    exact final_of_allowed hr hes hf hs

theorem sparesLive_of_no_orphan (h : ∀ r ∈ s.rows, ¬ s.Orphan r) : SparesLive s e := by
  cases e with
  | recover => exact fun r hm ho => absurd ho (h r hm)
  | _ => trivial

end Outcomes

/-! ## An executor outlived by a recovery -/

section Demo

theorem ten_pos : 0 < 10 := by decide

/-- An order for ten shares, as the executor claims it at time zero. -/
def demoRow : Row :=
  ⟨1, "acct", .us, "AAPL", .buy, .qty 10 ten_pos, 0, .pending, none, 0⟩

def demoResult : Result := ⟨.filled, 10, 10, []⟩

/-- The first executor claims the order and hands it over. -/
def demoHanded : List Event :=
  [.start 0, .recover 0, .create 1 "acct" .us "AAPL" .buy (.qty 10 ten_pos) 0, .claim 0 [] demoRow,
    .resolve 0 demoRow (.ok (some 100, some "NASD")) (.ok none)]

/-- Its chase ends and the outcome is recorded. -/
def demoRecorded : List Event :=
  [.chased 0 demoRow 10 (some 100) (.ok demoResult),
    .finish 0 1 .filled ⟨none, some ⟨10, some 100, demoResult, false⟩⟩]

/-- A second executor starts more than half an hour later. -/
def demoRecovery : List Event := [.wait 1801, .start 1, .recover 1]

theorem demo_spares : (system.restrict SparesLive).Allowed World.init
    (demoHanded ++ demoRecorded ++ demoRecovery) := by
  refine ⟨⟨by decide +kernel, trivial⟩, ⟨by decide +kernel, ?_⟩, ⟨by decide +kernel, trivial⟩,
    ⟨by decide +kernel, trivial⟩, ⟨by decide +kernel, trivial⟩, ⟨by decide +kernel, trivial⟩,
    ⟨by decide +kernel, trivial⟩, ⟨by decide +kernel, trivial⟩, ⟨by decide +kernel, trivial⟩,
    ⟨by decide +kernel, ?_⟩, trivial⟩
  · exact sparesLive_of_no_orphan (by decide +kernel)
  · exact sparesLive_of_no_orphan (by decide +kernel)

theorem orders_one_way_demo :
    system.Reaches World.init (system.run World.init (demoHanded ++ demoRecorded)) ∧
      (system.run World.init (demoHanded ++ demoRecorded)).handed.Nodup ∧
      (system.run (system.run World.init (demoHanded ++ demoRecorded)) demoRecovery).status 1 =
        some .filled := by
  have hr : (system.restrict SparesLive).Reaches World.init
      (system.run World.init (demoHanded ++ demoRecorded)) :=
    System.Reaches.start.run (System.allowed_append.mp demo_spares).1
  have ho := orders_one_way hr.of_restrict
  refine ⟨hr.of_restrict, ho.1, ?_⟩
  exact ho.2.2 hr demoRecovery (System.allowed_append.mp demo_spares).2 1 .filled (Or.inl rfl)
    (by decide +kernel)

/-- The chase takes longer than half an hour and a second executor starts: the order is declared
dead, and then the first executor records that it was filled. -/
theorem failed_becomes_filled :
    system.Allowed World.init (demoHanded ++ demoRecovery ++ demoRecorded) ∧
    (system.run World.init (demoHanded ++ demoRecovery)).status 1 = some .failed ∧
    (system.run World.init (demoHanded ++ demoRecovery ++ demoRecorded)).status 1 = some .filled ∧
    ¬ ∀ (s : World) (es : List Event), system.Reaches World.init s → system.Allowed s es →
      ∀ id st, Status.Final st → s.status id = some st →
        (system.run s es).status id = some st := by
  have hallowed : system.Allowed World.init (demoHanded ++ demoRecovery ++ demoRecorded) := by
    decide +kernel
  have hfailed : (system.run World.init (demoHanded ++ demoRecovery)).status 1 = some .failed := by
    decide +kernel
  refine ⟨hallowed, hfailed, by decide +kernel, ?_⟩
  intro h
  obtain ⟨hfirst, hrest⟩ := System.allowed_append.mp hallowed
  have hfinal := h (system.run World.init (demoHanded ++ demoRecovery)) demoRecorded
    (System.Reaches.start.run hfirst) hrest 1 .failed (Or.inr (Or.inl rfl)) hfailed
  exact absurd hfinal (by decide +kernel)

end Demo

end QuantTrader.StockOrders
