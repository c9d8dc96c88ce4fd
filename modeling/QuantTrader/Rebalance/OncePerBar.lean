import Mathlib.Algebra.Order.Ring.Rat
import QuantTrader.Rebalance.Commander
import QuantTrader.Strategy.Replay
import QuantTrader.Transition.Run

/-! # Once per bar, and never back

The commander acts on the bars on which the newest signals of all the loads of
a symbol agree, without adjacent repetitions: it remembers one bar. Its bars
increase strictly exactly when those bars never go back, as they do when the
signals of each load arrive in order.
-/

namespace QuantTrader.Rebalance

open Strategy (PyFloat)

open Transition

variable {F B : Type}

/-- The signal of a load for a symbol that a delivery carries. -/
def signalOf (symbol load : String) (d : Delivery F B) : Option (B × F) :=
  d.message.bind fun sig =>
    if sig.symbol = symbol ∧ sig.strategy = load then some (sig.barTs, sig.targetWeight) else none

/-- The newest signal of each load of a symbol among the deliveries. -/
def newest (symbol : String) (ds : List (Delivery F B)) (load : String) : Option (B × F) :=
  (ds.filterMap (signalOf symbol load)).getLast?

theorem newest_snoc (symbol load : String) (ds : List (Delivery F B)) (d : Delivery F B) :
    newest symbol (ds ++ [d]) load = (signalOf symbol load d).or (newest symbol ds load) := by
  unfold newest
  rw [List.filterMap_append]
  cases h : signalOf symbol load d with
  | none => simp [h]
  | some p => simp [h]

section Steps

variable [DecidableEq B] [PyFloat F]

/-- The bar of the delivered signal, when the loads of its symbol agree on it. -/
def agreed (roster : List String) (symbol : String) (latest : String → Option (B × F))
    (d : Delivery F B) : Option B :=
  d.message.bind fun sig =>
    if sig.symbol = symbol ∧ sig.strategy ∈ roster ∧
        (combinedForBar latest roster sig.barTs d.reads.weights).isSome then some sig.barTs
    else none

/-- The bar on which the last delivery makes the newest signals of a symbol agree. -/
def completion (roster : List String) (symbol : String) (ds : List (Delivery F B)) : Option B :=
  ds.getLast?.bind (agreed roster symbol (newest symbol ds))

/-- The bars on which the newest signals of all the loads agree, delivery by delivery. -/
def completions (roster : List String) (symbol : String) (ds : List (Delivery F B)) : List B :=
  ds.inits.filterMap (completion roster symbol)

@[simp] theorem completions_nil (roster : List String) (symbol : String) :
    completions roster symbol ([] : List (Delivery F B)) = [] := rfl

theorem completions_snoc (roster : List String) (symbol : String) (ds : List (Delivery F B))
    (d : Delivery F B) :
    completions roster symbol (ds ++ [d]) =
      completions roster symbol ds ++ (completion roster symbol (ds ++ [d])).toList := by
  unfold completions
  rw [List.inits_append, List.filterMap_append]
  cases h : completion roster symbol (ds ++ [d]) <;> simp [h]

variable (c : Context) (band : ℚ) (roster : List String)

/-- The process was still polling when the last of the deliveries came. -/
def Polled (ds : List (Delivery F B)) : Prop :=
  (Commander.run c band roster ds.dropLast).running = true

instance (ds : List (Delivery F B)) : Decidable (Polled c band roster ds) :=
  inferInstanceAs (Decidable (_ = _))

variable {c band roster} {s : Commander F B} {d : Delivery F B} {ds : List (Delivery F B)}
  {symbol : String}

theorem running_of_handle (h : (s.handle c band roster d).running = true) : s.running = true := by
  by_contra hs
  rw [Commander.handle, if_neg hs] at h
  exact hs h

theorem polled_snoc_iff :
    Polled c band roster (ds ++ [d]) ↔ (Commander.run c band roster ds).running = true := by
  rw [Polled, List.dropLast_concat]

theorem polled_of_running (h : (Commander.run c band roster ds).running = true) :
    Polled c band roster ds := by
  induction ds using List.reverseRecOn with
  | nil => rfl
  | append_singleton ds d _ =>
    rw [Commander.run_snoc] at h
    exact polled_snoc_iff.mpr (running_of_handle h)

omit [DecidableEq B] [PyFloat F] in
theorem Commander.store_latest (sig : SignalMessage F B) (symbol load : String) :
    (s.store sig).latest symbol load =
      if sig.symbol = symbol ∧ sig.strategy = load then some (sig.barTs, sig.targetWeight)
      else s.latest symbol load := by
  unfold Commander.store
  by_cases hs : sig.symbol = symbol
  · subst hs
    by_cases hl : sig.strategy = load
    · subst hl; simp
    · simp [hl, Function.update_of_ne (Ne.symm hl)]
  · simp [hs, Function.update_of_ne (Ne.symm hs)]

/-- A signal of the roster is stored; it is acted on if its bar is not the remembered one and all
loads agree on it. -/
theorem onSignal_cases {sig : SignalMessage F B} {reads : Reads F} (hr : sig.strategy ∈ roster) :
    (s.onSignal c band roster sig reads = s.store sig ∧
      (s.lastActed sig.symbol = some sig.barTs ∨
        combinedForBar ((s.store sig).latest sig.symbol) roster sig.barTs reads.weights = none)) ∨
    ∃ combined, combinedForBar ((s.store sig).latest sig.symbol) roster sig.barTs reads.weights =
        some combined ∧ s.lastActed sig.symbol ≠ some sig.barTs ∧
      s.onSignal c band roster sig reads =
        (s.store sig).act c band sig.symbol sig.barTs combined reads := by
  unfold Commander.onSignal
  rw [if_neg (not_not.mpr hr)]
  dsimp only
  split_ifs with hskip
  · refine .inl ⟨rfl, ?_⟩
    rcases hskip with hlast | hready
    · exact .inl hlast
    · right
      by_contra hc
      rw [rosterReady_of_combinedForBar (Option.isSome_iff_ne_none.mpr hc)] at hready
      cases hready
  · cases hc : combinedForBar ((s.store sig).latest sig.symbol) roster sig.barTs reads.weights with
    | none => exact .inl ⟨rfl, .inr rfl⟩
    | some combined => exact .inr ⟨combined, rfl, (not_or.mp hskip).1, rfl⟩

theorem onSignal_latest {sig : SignalMessage F B} {reads : Reads F}
    (hr : sig.strategy ∈ roster) :
    (s.onSignal c band roster sig reads).latest = (s.store sig).latest := by
  rcases onSignal_cases (s := s) (c := c) hr with ⟨he, -⟩ | ⟨combined, -, -, he⟩
  · rw [he]
  · rw [he]
    rfl

theorem handle_latest (hs : s.running = true) {load : String} (hl : load ∈ roster) :
    (s.handle c band roster d).latest symbol load =
      (signalOf symbol load d).or (s.latest symbol load) := by
  rw [Commander.handle, if_pos hs]
  cases hm : d.message with
  | none => simp [signalOf, hm]
  | some sig =>
    dsimp only
    by_cases hr : sig.strategy ∈ roster
    · rw [onSignal_latest hr, Commander.store_latest]
      simp only [signalOf, hm, Option.bind_some]
      split_ifs <;> rfl
    · rw [Commander.onSignal, if_pos hr]
      have hne : ¬ (sig.symbol = symbol ∧ sig.strategy = load) := by
        rintro ⟨-, rfl⟩
        exact hr hl
      simp [signalOf, hm, hne]

theorem run_latest (hp : Polled c band roster ds) {load : String} (hl : load ∈ roster) :
    (Commander.run c band roster ds).latest symbol load = newest symbol ds load := by
  induction ds using List.reverseRecOn with
  | nil => rfl
  | append_singleton ds d ih =>
    have hs := polled_snoc_iff.mp hp
    rw [Commander.run_snoc, handle_latest hs hl, ih (polled_of_running hs), newest_snoc]

theorem agreed_congr {latest latest' : String → Option (B × F)}
    (h : ∀ n ∈ roster, latest n = latest' n) :
    agreed roster symbol latest d = agreed roster symbol latest' d := by
  unfold agreed
  congr 1
  ext sig
  rw [combinedForBar_congr h]

/-- A signal makes its own bar agree, if it combines, and no other. -/
theorem agreed_onSignal {sig : SignalMessage F B} (hm : d.message = some sig)
    (hr : sig.strategy ∈ roster) (symbol : String) :
    agreed roster symbol ((s.onSignal c band roster sig d.reads).latest symbol) d =
      if symbol = sig.symbol ∧ (combinedForBar ((s.store sig).latest sig.symbol) roster
        sig.barTs d.reads.weights).isSome then some sig.barTs else none := by
  rw [onSignal_latest hr]
  simp only [agreed, hm, Option.bind_some, hr, true_and, eq_comm (a := sig.symbol)]
  by_cases he : symbol = sig.symbol
  · rw [he]
  · simp only [he, false_and]

/-- A delivery leaves what was acted on, and every bar it makes agree is the remembered one; or it
acts on the one bar it makes agree, which is not the remembered one. -/
theorem handle_cases (c : Context) (band : ℚ) (roster : List String) (d : Delivery F B)
    (hs : s.running = true) :
    ((s.handle c band roster d).acted = s.acted ∧
      (s.handle c band roster d).lastActed = s.lastActed ∧
      ∀ symbol b, agreed roster symbol ((s.handle c band roster d).latest symbol) d = some b →
        s.lastActed symbol = some b) ∨
    ∃ sym b, (s.handle c band roster d).acted = s.acted ++ [(sym, b)] ∧
      s.lastActed sym ≠ some b ∧
      ((s.handle c band roster d).running = true →
        (s.handle c band roster d).lastActed = Function.update s.lastActed sym (some b)) ∧
      ∀ symbol, agreed roster symbol ((s.handle c band roster d).latest symbol) d =
        if symbol = sym then some b else none := by
  rw [Commander.handle, if_pos hs]
  cases hm : d.message with
  | none => exact Or.inl ⟨rfl, rfl, fun symbol b h => by simp [agreed, hm] at h⟩
  | some sig =>
    dsimp only
    by_cases hr : sig.strategy ∈ roster
    · simp only [agreed_onSignal hm hr]
      rcases onSignal_cases hr with ⟨he, hskip⟩ | ⟨combined, hc, hne, he⟩
      · left
        rw [he]
        refine ⟨rfl, rfl, ?_⟩
        intro symbol b h
        obtain ⟨⟨rfl, hc⟩, rfl⟩ : (symbol = sig.symbol ∧ _) ∧ sig.barTs = b := by simpa using h
        rcases hskip with hlast | hnone
        · exact hlast
        · rw [hnone] at hc
          cases hc
      · right
        rw [he]
        refine ⟨sig.symbol, sig.barTs, rfl, hne, ?_, by simp [hc]⟩
        intro hrun
        have hok : (rebalanceAll c sig.symbol combined d.reads.prices band
          d.reads.accounts).2 = true := hrun
        simp only [Commander.act, hok, if_true]
        rfl
    · left
      rw [Commander.onSignal, if_pos hr]
      refine ⟨rfl, rfl, ?_⟩
      intro symbol b h
      simp [agreed, hm, hr] at h

theorem run_collapses (hp : Polled c band roster ds) (symbol : String) :
    Collapses ((Commander.run c band roster ds).actedBars symbol) (completions roster symbol ds) ∧
      ((Commander.run c band roster ds).running = true →
        (Commander.run c band roster ds).lastActed symbol =
          (completions roster symbol ds).getLast?) := by
  induction ds using List.reverseRecOn with
  | nil => exact ⟨Collapses.nil, fun _ => rfl⟩
  | append_singleton ds d ih =>
    have hs := polled_snoc_iff.mp hp
    obtain ⟨hcol, hlast⟩ := ih (polled_of_running hs)
    have hlast := hlast hs
    have hag : completion roster symbol (ds ++ [d]) =
        agreed roster symbol ((Commander.run c band roster (ds ++ [d])).latest symbol) d := by
      rw [completion, List.getLast?_concat, Option.bind_some]
      exact agreed_congr fun n hn => (run_latest hp hn).symm
    rw [completions_snoc, hag, Commander.run_snoc]
    rcases handle_cases c band roster d hs with
      ⟨hacted, hsame, hold⟩ | ⟨sym, b, hacted, hnew, hsame, hiff⟩
    · rw [Commander.actedBars, hacted, hsame, hlast]
      cases h : agreed roster symbol _ d with
      | none => simpa [Commander.actedBars] using hcol
      | some b =>
        have hb := hlast.symm.trans (hold symbol b h)
        refine ⟨hcol.again (hcol.getLast?_eq.trans hb), fun _ => ?_⟩
        rw [hb, Option.toList_some, List.getLast?_concat]
    · rw [hiff, Commander.actedBars, hacted, List.filter_append, List.map_append]
      by_cases he : symbol = sym
      · subst he
        rw [if_pos rfl, Option.toList_some, List.getLast?_concat]
        constructor
        · simp only [List.filter_cons, decide_true, if_true, List.filter_nil, List.map_cons,
            List.map_nil]
          refine hcol.new ?_
          rw [hcol.getLast?_eq, ← hlast]
          exact hnew
        · intro hrun
          rw [hsame hrun, Function.update_self]
      · have hne : ¬ sym = symbol := fun h => he h.symm
        rw [if_neg he]
        simp only [List.filter_cons, hne, decide_false, Option.toList_none, List.append_nil,
          List.filter_nil]
        refine ⟨by simpa [Commander.actedBars] using hcol, fun hrun => ?_⟩
        rw [hsame hrun, Function.update_of_ne he, hlast]

end Steps

/-! ## Bars that never go back -/

section Order

variable [LinearOrder B] [PyFloat F] {c : Context} {band : ℚ} {roster : List String}
  {ds : List (Delivery F B)} {symbol : String}

/-- Each bar at most once, and never an earlier bar. -/
def ActsForward (bars : List B) : Prop := bars.Pairwise (· < ·) ∧ bars.Nodup

theorem acts_forward_iff (hp : Polled c band roster ds) (symbol : String) :
    ActsForward ((Commander.run c band roster ds).actedBars symbol) ↔
      (completions roster symbol ds).Pairwise (· ≤ ·) := by
  rw [← (run_collapses hp symbol).1.pairwise_lt_iff]
  constructor
  · exact fun h => h.1
  · exact fun h => ⟨h, h.imp ne_of_lt⟩

/-- The signals of each load for a symbol arrive in the order of their bars. -/
def LoadsInOrder (roster : List String) (symbol : String) (ds : List (Delivery F B)) : Prop :=
  ∀ load ∈ roster, (ds.filterMap (signalOf symbol load)).Pairwise fun p q => p.1 ≤ q.1

omit [PyFloat F] in
theorem LoadsInOrder.of_snoc {d : Delivery F B} (h : LoadsInOrder roster symbol (ds ++ [d])) :
    LoadsInOrder roster symbol ds := by
  intro load hl
  have := h load hl
  rw [List.filterMap_append, List.pairwise_append] at this
  exact this.1

omit [PyFloat F] in
theorem newest_le {d : Delivery F B} (h : LoadsInOrder roster symbol (ds ++ [d])) {load : String}
    (hl : load ∈ roster) {p : B × F} (hp : newest symbol ds load = some p) :
    ∃ q, newest symbol (ds ++ [d]) load = some q ∧ p.1 ≤ q.1 := by
  rw [newest_snoc]
  cases hd : signalOf symbol load d with
  | none => exact ⟨p, hp, le_rfl⟩
  | some q =>
    refine ⟨q, rfl, ?_⟩
    have ho := h load hl
    rw [List.filterMap_append, List.pairwise_append] at ho
    exact ho.2.2 p (List.mem_of_getLast? hp) q (by simp [hd])

theorem completions_le_newest (h : LoadsInOrder roster symbol ds) :
    (completions roster symbol ds).Pairwise (· ≤ ·) ∧
      ∀ b ∈ completions roster symbol ds, ∀ load ∈ roster,
        ∃ p, newest symbol ds load = some p ∧ b ≤ p.1 := by
  induction ds using List.reverseRecOn with
  | nil => simp
  | append_singleton ds d ih =>
    obtain ⟨hsorted, hbelow⟩ := ih h.of_snoc
    have hbelow' : ∀ b ∈ completions roster symbol ds, ∀ load ∈ roster,
        ∃ p, newest symbol (ds ++ [d]) load = some p ∧ b ≤ p.1 := by
      intro b hb load hl
      obtain ⟨p, hp, hle⟩ := hbelow b hb load hl
      obtain ⟨q, hq, hpq⟩ := newest_le h hl hp
      exact ⟨q, hq, hle.trans hpq⟩
    rw [completions_snoc]
    cases hc : completion roster symbol (ds ++ [d]) with
    | none =>
      rw [Option.toList_none, List.append_nil]
      exact ⟨hsorted, hbelow'⟩
    | some b =>
      obtain ⟨load, hload, hready⟩ : ∃ load ∈ roster, ∀ n ∈ roster,
          (newest symbol (ds ++ [d]) n).map Prod.fst = some b := by
        rw [completion, List.getLast?_concat, Option.bind_some, agreed] at hc
        obtain ⟨sig, -, hsig⟩ := Option.bind_eq_some_iff.mp hc
        split_ifs at hsig with hcond
        obtain rfl := Option.some.inj hsig
        exact ⟨sig.strategy, hcond.2.1,
          rosterReady_iff.mp (rosterReady_of_combinedForBar hcond.2.2)⟩
      rw [Option.toList_some]
      constructor
      · rw [List.pairwise_append]
        refine ⟨hsorted, List.pairwise_singleton _ _, ?_⟩
        rintro a ha b' hb'
        obtain rfl : b' = b := List.mem_singleton.mp hb'
        obtain ⟨p, hp, hle⟩ := hbelow' a ha load hload
        have := hready load hload
        rw [hp, Option.map_some, Option.some.injEq] at this
        rwa [this] at hle
      · intro a ha n hn
        rcases List.mem_append.mp ha with ha | ha
        · exact hbelow' a ha n hn
        · obtain rfl : a = b := List.mem_singleton.mp ha
          obtain ⟨p, hp, hpb⟩ := Option.map_eq_some_iff.mp (hready n hn)
          exact ⟨p, hp, hpb.ge⟩

/-- In-order signals of each load are enough, in any interleaving of the loads. -/
theorem acts_forward_of_loadsInOrder (hp : Polled c band roster ds)
    (h : LoadsInOrder roster symbol ds) :
    ActsForward ((Commander.run c band roster ds).actedBars symbol) := by
  have hlt := (run_collapses hp symbol).1.pairwise_lt_iff.mpr (completions_le_newest h).1
  exact ⟨hlt, hlt.imp ne_of_lt⟩

end Order

/-! ## A bar delivered again -/

section Demo

attribute [local instance] Strategy.PyFloat.rational

def demoRoster : List String := ["trend-5-40", "trend-10-60", "trend-20-100"]

def demoReads : Reads ℚ where
  weights _ := some 1
  prices _ := some 100000000
  accounts := [⟨"acct", [], 1000000, []⟩]

def demoBar (day : ℤ) : List (Delivery ℚ ℤ) :=
  demoRoster.map fun load => ⟨some ⟨"KRW-BTC", load, 1 / 2, day⟩, demoReads⟩

theorem acts_forward_twoBars :
    Polled Context.default (1 / 2) demoRoster (demoBar 19723 ++ demoBar 19724) ∧
      ActsForward ((Commander.run Context.default (1 / 2) demoRoster
        (demoBar 19723 ++ demoBar 19724)).actedBars "KRW-BTC") := by
  have hp : Polled Context.default (1 / 2) demoRoster
      (demoBar 19723 ++ demoBar 19724) := by
    decide +kernel
  exact ⟨hp, (acts_forward_iff hp "KRW-BTC").mpr (by decide +kernel)⟩

/-- The first bar is delivered again after the second: the commander goes back to it. -/
theorem bar_delivered_again :
    (Commander.run Context.default (1 / 2) demoRoster (demoBar 19723 ++
      demoBar 19724 ++ demoBar 19723)).actedBars "KRW-BTC" =
        [19723, 19724, 19723] ∧
    ((Commander.run Context.default (1 / 2) demoRoster (demoBar 19723 ++
      demoBar 19724 ++ demoBar 19723)).placed).length = 3 ∧
    ¬ ∀ (ds : List (Delivery ℚ ℤ)) (symbol : String),
      Polled Context.default (1 / 2) demoRoster ds →
      ActsForward ((Commander.run Context.default (1 / 2) demoRoster ds).actedBars symbol) := by
  have hacted : (Commander.run Context.default (1 / 2) demoRoster (demoBar 19723 ++
      demoBar 19724 ++ demoBar 19723)).actedBars "KRW-BTC" =
        [19723, 19724, 19723] := by
    decide +kernel
  refine ⟨hacted, by decide +kernel, ?_⟩
  intro h
  have hn := (h (demoBar 19723 ++ demoBar 19724 ++ demoBar 19723) "KRW-BTC"
    (by decide +kernel)).2
  rw [hacted] at hn
  exact absurd hn (by decide)

end Demo

end QuantTrader.Rebalance
