import QuantTrader.Weekly.Runs

/-! # One trade a week

A week is marked by a run that sees a fill of its own. As long as every run
whose orders are filled gets that far, no later run of the week trades.
-/

namespace QuantTrader.Weekly

open Transition

namespace World

/-- Of all runs of a week, one at most has orders that are filled. -/
def TradesOnce (w : World) : Prop :=
  ∀ o ∈ w.orders, ∀ o' ∈ w.orders, 0 < o.filled → 0 < o'.filled → o.week = o'.week → o.run = o'.run

/-- The run in progress has a filled order. -/
def Traded (w : World) : Prop := ∃ o ∈ w.orders, o.run = w.runs ∧ 0 < o.filled

instance (w : World) : Decidable w.TradesOnce := by
  unfold TradesOnce
  infer_instance

instance (w : World) : Decidable w.Traded := by
  unfold Traded
  infer_instance

/-- The first fill of a run comes while it is in progress; a run with a fill is not killed, has
targets, and its last look at the account shows a fill. -/
def Seen (w : World) : Event → Prop
  | .fill k _ => ∀ o ∈ w.orders[k]?, (w.current.isSome ∧ o.run = w.runs) ∨
      ∃ o' ∈ w.orders, o'.run = o.run ∧ 0 < o'.filled
  | .crash => ¬ w.Traded
  | .finish => w.Traded → ∀ r ∈ w.current, r.plan.targets ≠ [] ∧ ∃ o ∈ r.placed, o.symbol ∈ r.filled
  | _ => True

instance (w : World) : (e : Event) → Decidable (w.Seen e)
  | .fill k _ => inferInstanceAs (Decidable (∀ o ∈ w.orders[k]?,
      (w.current.isSome ∧ o.run = w.runs) ∨ ∃ o' ∈ w.orders, o'.run = o.run ∧ 0 < o'.filled))
  | .crash => inferInstanceAs (Decidable (¬ w.Traded))
  | .finish => inferInstanceAs (Decidable (w.Traded →
      ∀ r ∈ w.current, r.plan.targets ≠ [] ∧ ∃ o ∈ r.placed, o.symbol ∈ r.filled))
  | .start _ | .place _ | .look _ | .deadline => isTrue trivial

/-- What a filled order says about its week. -/
structure Inv (w : World) : Prop where
  started : ∀ o ∈ w.orders, o.run ≤ w.runs
  week : ∀ o ∈ w.orders, ∀ o' ∈ w.orders, o.run = o'.run → o.week = o'.week
  running : ∀ r ∈ w.current, r.week ∉ w.marks ∧ ∀ o ∈ w.orders, o.run = w.runs → o.week = r.week
  filled : ∀ o ∈ w.orders, 0 < o.filled → o.week ∈ w.marks ∨ w.current.isSome ∧ o.run = w.runs
  once : w.TradesOnce

namespace Inv

variable {w : World} {r : Running}

theorem current (h : Inv w) (hr : w.current = some r) {r' : Running} (hweek : r'.week = r.week) :
    Inv { w with current := some r' } where
  started := h.started
  week := h.week
  running := by
    rintro _ ⟨⟩
    rw [hweek]
    exact h.running r hr
  filled o ho hfill := (h.filled o ho hfill).imp_right fun hrun => ⟨rfl, hrun.2⟩
  once := h.once

theorem start (h : Inv w) (hidle : w.current = none) (i : Inputs) : Inv (w.start i) := by
  unfold World.start
  split_ifs with hguard
  · exact ⟨h.started, h.week, h.running, h.filled, h.once⟩
  · constructor
    · intro o ho
      exact (h.started o ho).trans (Nat.le_succ _)
    · exact h.week
    · rintro _ ⟨⟩
      refine ⟨?_, ?_⟩
      · intro hmark
        simp [weeklyGuard, hmark] at hguard
      · intro o ho hrun
        have hle := h.started o ho
        have hnext : o.run = w.runs + 1 := hrun
        omega
    · intro o ho hfill
      rcases h.filled o ho hfill with hmark | ⟨hsome, -⟩
      · exact Or.inl hmark
      · simp [hidle] at hsome
    · exact h.once

theorem place (h : Inv w) (hr : w.current = some r) (o : Outcome) : Inv (w.place r o) := by
  unfold World.place
  cases htodo : r.todo with
  | nil => exact h
  | cons item todo =>
    dsimp only
    split_ifs
    · obtain ⟨hmark, hweek⟩ := h.running r hr
      have hnew : ∀ x ∈ w.orders ++ [⟨w.runs, r.week, item.symbol, item.side, item.qty, 0⟩],
          x ∈ w.orders ∨ x.run = w.runs ∧ x.week = r.week ∧ x.filled = 0 := by
        intro x hx
        rcases List.mem_append.mp hx with hx | hx
        · exact Or.inl hx
        · rw [List.mem_singleton.mp hx]
          exact Or.inr ⟨rfl, rfl, rfl⟩
      constructor
      · intro x hx
        rcases hnew x hx with hx | ⟨hrun, -, -⟩
        · exact h.started x hx
        · exact hrun.le
      · intro x hx y hy hxy
        rcases hnew x hx with hx | ⟨hrun, hw, -⟩
        · rcases hnew y hy with hy | ⟨hrun', hw', -⟩
          · exact h.week x hx y hy hxy
          · rw [hw', hweek x hx (hxy.trans hrun')]
        · rcases hnew y hy with hy | ⟨-, hw', -⟩
          · rw [hw, hweek y hy (hxy.symm.trans hrun)]
          · rw [hw, hw']
      · rintro _ ⟨⟩
        refine ⟨hmark, ?_⟩
        intro x hx hrun
        rcases hnew x hx with hx | ⟨-, hw, -⟩
        · exact hweek x hx hrun
        · exact hw
      · intro x hx hfill
        rcases hnew x hx with hx | ⟨-, -, hzero⟩
        · exact (h.filled x hx hfill).imp_right fun hrun => ⟨rfl, hrun.2⟩
        · omega
      · intro x hx y hy hfill hfill'
        rcases hnew x hx with hx | ⟨-, -, hzero⟩
        · rcases hnew y hy with hy | ⟨-, -, hzero⟩
          · exact h.once x hx y hy hfill hfill'
          · omega
        · omega
    · exact h.current hr rfl

theorem look (h : Inv w) (hr : w.current = some r) (positions : Option (List Position)) :
    Inv (w.look r positions) := by
  cases positions with
  | none => exact h
  | some after => exact h.current hr rfl

theorem completed_of_seen (hr : w.current = some r) (hs : w.Seen .finish) (ht : w.Traded) :
    completed r.plan r.placed r.filled = true := by
  obtain ⟨htargets, o, ho, hfilled⟩ := hs ht r hr
  unfold completed
  rw [if_neg htargets]
  split_ifs
  · rfl
  · exact List.any_eq_true.mpr ⟨o, ho, decide_eq_true hfilled⟩

theorem finish (h : Inv w) (hr : w.current = some r) (hs : w.Seen .finish) :
    Inv (w.finish r) where
  started := h.started
  week := h.week
  running := nofun
  filled := by
    intro o ho hfill
    left
    unfold World.finish
    dsimp only
    rcases h.filled o ho hfill with hmark | ⟨-, hrun⟩
    · split_ifs
      · exact List.mem_append_left _ hmark
      · exact hmark
    · have hcompleted := completed_of_seen hr hs ⟨o, ho, hrun, hfill⟩
      rw [(h.running r hr).2 o ho hrun]
      split_ifs with hmark
      · exact List.mem_append_right _ (List.mem_singleton_self _)
      · by_contra hnot
        exact hmark ⟨hcompleted, hnot⟩
  once := h.once

theorem crash (h : Inv w) (hs : ¬ w.Traded) : Inv { w with current := none } where
  started := h.started
  week := h.week
  running := nofun
  filled := by
    intro o ho hfill
    rcases h.filled o ho hfill with hmark | ⟨-, hrun⟩
    · exact Or.inl hmark
    · exact absurd ⟨o, ho, hrun, hfill⟩ hs
  once := h.once

theorem mem_fill {k : ℕ} {qty : ℤ} {o : Order} (ho : o ∈ (w.fill k qty).orders) :
    o ∈ w.orders ∨ ∃ p, w.orders[k]? = some p ∧ o = { p with filled := p.filled + qty } := by
  obtain ⟨j, hj⟩ := List.mem_iff_getElem?.mp ho
  rw [World.fill, List.getElem?_modify] at hj
  obtain ⟨p, hp, rfl⟩ := Option.map_eq_some_iff.mp hj
  by_cases hkj : k = j
  · subst hkj
    exact Or.inr ⟨p, hp, by simp⟩
  · left
    simpa [hkj] using List.mem_of_getElem? hp

theorem exists_of_mem_fill {k : ℕ} {qty : ℤ} {o : Order} (ho : o ∈ (w.fill k qty).orders) :
    ∃ p ∈ w.orders, p.run = o.run ∧ p.week = o.week := by
  rcases mem_fill ho with ho | ⟨p, hp, rfl⟩
  · exact ⟨o, ho, rfl, rfl⟩
  · exact ⟨p, List.mem_of_getElem? hp, rfl, rfl⟩

/-- A filled order is of a run with earlier fills, or of the run in progress. -/
theorem filled_of_mem_fill (h : Inv w) {k : ℕ} {qty : ℤ} (hs : w.Seen (.fill k qty)) {o : Order}
    (ho : o ∈ (w.fill k qty).orders) (hfill : 0 < o.filled) :
    (∃ p ∈ w.orders, p.run = o.run ∧ p.week = o.week ∧ 0 < p.filled) ∨
      w.current.isSome ∧ o.run = w.runs := by
  rcases mem_fill ho with ho | ⟨p, hp, rfl⟩
  · exact Or.inl ⟨o, ho, rfl, rfl, hfill⟩
  · rcases hs p hp with hrun | ⟨q, hq, hrun, hqfill⟩
    · exact Or.inr hrun
    · exact Or.inl ⟨q, hq, hrun, h.week q hq p (List.mem_of_getElem? hp) hrun, hqfill⟩

theorem fill (h : Inv w) {k : ℕ} {qty : ℤ} (hs : w.Seen (.fill k qty)) : Inv (w.fill k qty) := by
  have hweek : ∀ r ∈ w.current, ∀ o ∈ (w.fill k qty).orders, o.run = w.runs → o.week = r.week := by
    intro r hr o ho hrun
    obtain ⟨p, hp, hprun, hpweek⟩ := exists_of_mem_fill ho
    rw [← hpweek]
    exact (h.running r hr).2 p hp (hprun.trans hrun)
  have hboth : ∀ o ∈ (w.fill k qty).orders, ∀ p ∈ w.orders, 0 < p.filled → o.week = p.week →
      w.current.isSome ∧ o.run = w.runs → o.run = p.run := by
    intro o ho p hp hfill hop ⟨hsome, hrun⟩
    obtain ⟨r, hr⟩ := Option.isSome_iff_exists.mp hsome
    rcases h.filled p hp hfill with hmark | ⟨-, hprun⟩
    · rw [← hop, hweek r hr o ho hrun] at hmark
      exact absurd hmark (h.running r hr).1
    · rw [hrun, hprun]
  constructor
  · intro o ho
    obtain ⟨p, hp, hrun, -⟩ := exists_of_mem_fill ho
    exact hrun ▸ h.started p hp
  · intro o ho o' ho' hrun
    obtain ⟨p, hp, hprun, hpweek⟩ := exists_of_mem_fill ho
    obtain ⟨p', hp', hprun', hpweek'⟩ := exists_of_mem_fill ho'
    rw [← hpweek, ← hpweek']
    exact h.week p hp p' hp' (by rw [hprun, hprun', hrun])
  · intro r hr
    exact ⟨(h.running r hr).1, hweek r hr⟩
  · intro o ho hfill
    rcases filled_of_mem_fill h hs ho hfill with ⟨p, hp, hrun, hpweek, hpfill⟩ | hrun
    · rw [← hpweek, ← hrun]
      exact h.filled p hp hpfill
    · exact Or.inr hrun
  · intro o ho o' ho' hfill hfill' hoo
    rcases filled_of_mem_fill h hs ho hfill with ⟨p, hp, hrun, hpweek, hpfill⟩ | hrun
    · rcases filled_of_mem_fill h hs ho' hfill' with ⟨p', hp', hrun', hpweek', hpfill'⟩ | hrun'
      · rw [← hrun, ← hrun']
        exact h.once p hp p' hp' hpfill hpfill' (by rw [hpweek, hpweek', hoo])
      · rw [← hrun, hboth o' ho' p hp hpfill (by rw [hpweek, hoo]) hrun']
    · rcases filled_of_mem_fill h hs ho' hfill' with ⟨p', hp', hrun', hpweek', hpfill'⟩ | hrun'
      · rw [← hrun', hboth o ho p' hp' hpfill' (by rw [hpweek', hoo]) hrun]
      · rw [hrun.2, hrun'.2]

theorem next {e : Event} (h : Inv w) (he : w.Enabled e) (hs : w.Seen e) : Inv (w.next e) := by
  cases e with
  | start i => exact h.start (Option.isNone_iff_eq_none.mp he.1) i
  | place o =>
    obtain ⟨r, hr, -⟩ := he
    simp only [World.next, Option.mem_def.mp hr]
    exact h.place hr o
  | look positions =>
    obtain ⟨r, hr, -⟩ := he
    simp only [World.next, Option.mem_def.mp hr]
    exact h.look hr positions
  | deadline =>
    obtain ⟨r, hr, -⟩ := he
    simp only [World.next, Option.mem_def.mp hr]
    exact h.current hr rfl
  | finish =>
    obtain ⟨r, hr, -⟩ := he
    simp only [World.next, Option.mem_def.mp hr]
    exact h.finish hr hs
  | crash => exact h.crash hs
  | fill k qty => exact h.fill hs

end Inv

/-- In every run of the system in which each trading run sees a fill of its own and marks its week,
one run at most trades in a week. -/
theorem trades_once {clock : ℤ} {marks : List ℤ} {w : World}
    (h : (system.restrict Seen).Reaches (init clock marks) w) : w.TradesOnce := by
  have hinv : Inv w := by
    apply h.invariant
    · exact ⟨nofun, nofun, nofun, nofun, nofun⟩
    · intro w e hi hstep
      exact hi.next hstep.1 hstep.2
  exact hinv.once

section Demo

/-- A run that may buy one of two ranked symbols. -/
def demoInputs (day : ℤ) (positions : List Position) : Inputs where
  day := day
  holiday := false
  topN := 2
  maxOrders := 1
  ranked := ["005930", "000660"]
  cash := 1000000
  positions := positions
  closes := fun _ => some 100000

def demoPosition (symbol : String) : Position := ⟨symbol, 5, 500000⟩

/-- A Monday: the first symbol is bought and its order filled. -/
def demoMonday : List Event :=
  [.start (demoInputs 4 []), .place .accepted, .fill 0 5]

def demoSees : List Event := [.look (some [demoPosition "005930"]), .finish]

/-- The next day: the second symbol is bought, if the run trades at all. -/
def demoTuesday : List Event := [.start (demoInputs 5 [demoPosition "005930"])]

theorem trades_once_demo :
    (system.run (init 0 []) (demoMonday ++ demoSees ++ demoTuesday)).TradesOnce := by
  have hr : (system.restrict Seen).Reaches (init 0 [])
      (system.run (init 0 []) (demoMonday ++ demoSees ++ demoTuesday)) :=
    System.Reaches.start.run (by decide +kernel)
  exact trades_once hr

/-- The run of Monday is killed before it marks the week; the run of Tuesday buys, too. -/
theorem unmarked_trades_twice :
    system.Allowed (init 0 [])
      (demoMonday ++ [.crash] ++ demoTuesday ++ [.place .accepted, .fill 1 5]) ∧
    ¬ (system.run (init 0 [])
      (demoMonday ++ [.crash] ++ demoTuesday ++ [.place .accepted, .fill 1 5])).TradesOnce ∧
    ¬ ∀ (clock : ℤ) (marks : List ℤ) (w : World), system.Reaches (init clock marks) w →
      w.TradesOnce := by
  have hall : system.Allowed (init 0 [])
        (demoMonday ++ [.crash] ++ demoTuesday ++ [.place .accepted, .fill 1 5]) ∧
      ¬ (system.run (init 0 [])
        (demoMonday ++ [.crash] ++ demoTuesday ++ [.place .accepted, .fill 1 5])).TradesOnce := by
    decide +kernel
  obtain ⟨hallowed, htwice⟩ := hall
  refine ⟨hallowed, htwice, ?_⟩
  intro h
  exact htwice (h 0 [] _ (System.Reaches.start.run hallowed))

end Demo

end World

end QuantTrader.Weekly
