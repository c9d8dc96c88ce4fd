import QuantTrader.Pipeline.World

/-! # Resetting an account

A reset empties the tables of an account, its equity curve among them, but keeps
its trade decisions. Every boot repairs the curve from the decisions, so a day
before the reset comes back exactly when a decision of that day has an equity.
-/

namespace QuantTrader.Equity

open Transition Pipeline

variable {Amount : Type} [Max Amount]

/-- The UTC date of a time in microseconds, in days since the epoch. -/
def utcDate (t : ℤ) : ℤ := t / 86400000000

inductive Market
  | coin
  | kr
  | us
  deriving DecidableEq

/-- The primary key of `equity_snapshots`. -/
structure Key where
  market : Market
  accountId : String
  snapDate : ℤ
  deriving DecidableEq

/-- The other columns of `equity_snapshots`. -/
structure Snapshot (Amount : Type) where
  ts : ℤ
  currency : String
  cash : Option Amount
  positionsValue : Option Amount
  equity : Amount

/-- The columns of `trade_decisions` that the repair reads. -/
structure Decision (Amount : Type) where
  runTs : ℤ
  accountId : String
  equity : Option Amount

structure Tables (Amount : Type) where
  pipeline : Pipeline.World
  snapshots : Key → Option (Snapshot Amount)
  decisions : List (Decision Amount)

/-- `reset` for one account. -/
def resetOne (t : Tables Amount) (acct : String) : Tables Amount :=
  { t with
    pipeline := { t.pipeline with
      db := resetAccount t.pipeline.db acct
      outbox := keptOutbox t.pipeline acct }
    snapshots := fun k => if k.accountId = acct then none else t.snapshots k }

def reset (t : Tables Amount) (accountIds : List String) : Tables Amount :=
  accountIds.foldl resetOne t

/-- The decisions of an account on a date that have an equity. -/
def group (decisions : List (Decision Amount)) (accountId : String) (date : ℤ) :
    List (ℤ × Amount) :=
  (decisions.filter fun d => d.accountId = accountId ∧ utcDate d.runTs = date).filterMap
    fun d => d.equity.map fun equity => (d.runTs, equity)

/-- The row that the query of the repair has for a key. -/
def seed (decisions : List (Decision Amount)) (k : Key) : Option (Snapshot Amount) :=
  if k.market = .coin then do
    let rows := group decisions k.accountId k.snapDate
    let ts ← (rows.map Prod.fst).max?
    let equity ← (rows.map Prod.snd).max?
    some ⟨ts, "KRW", none, none, equity⟩
  else none

/-- The statement of `postgres_repair.sql`: a row that is there wins. -/
def repair (t : Tables Amount) : Tables Amount :=
  { t with snapshots := fun k => (t.snapshots k).or (seed t.decisions k) }

inductive Event (Amount : Type)
  | boot (commits : Bool)
  | decide (d : Decision Amount)
  | snapshot (k : Key) (row : Snapshot Amount)

namespace Event

/-- After the reset rows are written at later times; `record_snapshot` dates its row today. -/
def Enabled (now : ℤ) : Event Amount → Prop
  | boot _ => True
  | decide d => now ≤ d.runTs
  | snapshot k _ => utcDate now ≤ k.snapDate

/-- A boot migrates and repairs on one connection, whose work is lost when a statement fails. -/
def next (t : Tables Amount) : Event Amount → Tables Amount
  | boot commits => if commits then repair t else t
  | decide d => { t with decisions := t.decisions ++ [d] }
  | snapshot k row => { t with snapshots := Function.update t.snapshots k (some row) }

end Event

/-- What happens after a reset at `now`. -/
def system (now : ℤ) : System (Tables Amount) (Event Amount) := ⟨fun _ => Event.Enabled now, Event.next⟩

/-- No row of the account is dated before the time. -/
def NoEarlier (acct : String) (now : ℤ) (t : Tables Amount) : Prop :=
  ∀ k, k.accountId = acct → (t.snapshots k).isSome → utcDate now ≤ k.snapDate

/-- No decision of the account with an equity is dated before the time. -/
def NoDecisionBefore (acct : String) (now : ℤ) (decisions : List (Decision Amount)) : Prop :=
  ∀ d ∈ decisions, d.accountId = acct → d.equity.isSome → utcDate now ≤ utcDate d.runTs

section

variable {t : Tables Amount} {acct : String} {now : ℤ} {ids : List String} {k : Key}
  {decisions : List (Decision Amount)}

omit [Max Amount] in
theorem utcDate_mono {s t : ℤ} (h : s ≤ t) : utcDate s ≤ utcDate t :=
  Int.ediv_le_ediv (by decide) h

omit [Max Amount] in
theorem group_eq_nil_iff {date : ℤ} : group decisions acct date = [] ↔
    ∀ d ∈ decisions, d.accountId = acct → utcDate d.runTs = date → d.equity = none := by
  simp only [group, List.filterMap_eq_nil_iff, List.mem_filter, decide_eq_true_eq,
    Option.map_eq_none_iff, and_imp]

/-- The repair has a row for a coin key exactly when a decision of that day has an equity. -/
theorem seed_isSome_iff : (seed decisions k).isSome ↔ k.market = .coin ∧
    ∃ d ∈ decisions, d.accountId = k.accountId ∧ utcDate d.runTs = k.snapDate ∧ d.equity.isSome := by
  unfold seed
  split_ifs with hcoin
  · cases hgroup : group decisions k.accountId k.snapDate with
    | nil =>
      have hnone := group_eq_nil_iff.mp hgroup
      constructor
      · intro h
        cases h
      · rintro ⟨-, d, hd, hacct, hdate, hequity⟩
        rw [hnone d hd hacct hdate] at hequity
        cases hequity
    | cons row rows =>
      have hne : group decisions k.accountId k.snapDate ≠ [] := by
        rw [hgroup]
        exact List.cons_ne_nil row rows
      rw [Ne, group_eq_nil_iff] at hne
      push Not at hne
      obtain ⟨d, hd, hacct, hdate, hequity⟩ := hne
      constructor
      · exact fun _ => ⟨hcoin, d, hd, hacct, hdate, Option.isSome_iff_ne_none.mpr hequity⟩
      · exact fun _ => rfl
  · constructor
    · intro h
      cases h
    · exact fun h => absurd h.1 hcoin

omit [Max Amount] in
theorem reset_spec (t : Tables Amount) (ids : List String) :
    (reset t ids).decisions = t.decisions ∧
      ∀ k, k.accountId ∈ ids → (reset t ids).snapshots k = none := by
  induction ids using List.reverseRecOn with
  | nil => exact ⟨rfl, fun k hk => by cases hk⟩
  | append_singleton ids acct ih =>
    have hsnoc : reset t (ids ++ [acct]) = resetOne (reset t ids) acct := by
      simp [reset, List.foldl_append]
    rw [hsnoc]
    refine ⟨ih.1, ?_⟩
    intro k hk
    by_cases hacct : k.accountId = acct
    · exact if_pos hacct
    · have hids : k.accountId ∈ ids := by
        rcases List.mem_append.mp hk with hk | hk
        · exact hk
        · exact absurd (List.mem_singleton.mp hk) hacct
      exact (if_neg hacct).trans (ih.2 k hids)

/-- The repair dates no row of the account before the time unless a decision is. -/
theorem NoEarlier.repair (h : NoEarlier acct now t) (hd : NoDecisionBefore acct now t.decisions) :
    NoEarlier acct now (repair t) := by
  intro k hk hsome
  by_cases hrow : (t.snapshots k).isSome
  · exact h k hk hrow
  · have hseed : (seed t.decisions k).isSome := by
      rw [Option.not_isSome_iff_eq_none] at hrow
      simpa [Equity.repair, hrow] using hsome
    obtain ⟨-, d, hmem, hacct, hdate, hequity⟩ := seed_isSome_iff.mp hseed
    rw [← hdate]
    exact hd d hmem (hacct.trans hk) hequity

theorem noEarlier_next {e : Event Amount}
    (h : NoEarlier acct now t ∧ NoDecisionBefore acct now t.decisions) (he : Event.Enabled now e) :
    NoEarlier acct now (Event.next t e) ∧ NoDecisionBefore acct now (Event.next t e).decisions := by
  cases e with
  | boot commits =>
    cases commits with
    | true => exact ⟨h.1.repair h.2, h.2⟩
    | false => exact h
  | decide d =>
    refine ⟨h.1, ?_⟩
    intro d' hd' hacct hequity
    rcases List.mem_append.mp hd' with hd' | hd'
    · exact h.2 d' hd' hacct hequity
    · obtain rfl := List.mem_singleton.mp hd'
      exact utcDate_mono he
  | snapshot k row =>
    refine ⟨?_, h.2⟩
    intro k' hk' hsome
    rcases eq_or_ne k' k with rfl | hne
    · exact he
    · simp only [Event.next, Function.update_of_ne hne] at hsome
      exact h.1 k' hk' hsome

/-- A reset is permanent exactly when no decision of the account with an equity is of an earlier
day. -/
theorem reset_permanent_iff (t : Tables Amount) (hids : acct ∈ ids) :
    (∀ s, (system now).Reaches (reset t ids) s → NoEarlier acct now s) ↔
      NoDecisionBefore acct now t.decisions := by
  obtain ⟨hdecisions, hsnapshots⟩ := reset_spec t ids
  constructor
  · intro hall d hd hacct hequity
    have hboot := hall _ (System.Reaches.start.step (Event.boot true) trivial)
    apply hboot ⟨.coin, acct, utcDate d.runTs⟩ rfl
    have hseed : (seed t.decisions ⟨.coin, acct, utcDate d.runTs⟩).isSome :=
      seed_isSome_iff.mpr ⟨rfl, d, hd, hacct, rfl, hequity⟩
    simpa [system, Event.next, repair, hsnapshots ⟨.coin, acct, _⟩ hids, hdecisions] using hseed
  · intro hd s hs
    have hinv : NoEarlier acct now s ∧ NoDecisionBefore acct now s.decisions := by
      apply hs.invariant
      · refine ⟨?_, by rwa [hdecisions]⟩
        rintro k rfl hsome
        rw [hsnapshots k hids] at hsome
        cases hsome
      · exact fun s e h he => noEarlier_next h he
    exact hinv.1

end

section Demo

def demoTables : Tables ℚ where
  pipeline := fresh ⟨fun _ => none, fun _ _ => none, fun _ => none, []⟩
  snapshots k := if k = ⟨.coin, "demo", 20000⟩ then
    some ⟨20000 * 86400000000 + 1, "KRW", none, none, 9500000⟩ else none
  decisions := [⟨20000 * 86400000000, "demo", some 9500000⟩]

def demoNow : ℤ := 20005 * 86400000000

/-- The same snapshot, but the run of that day told no equity, and the next one is of the day of
the reset; another account ran in between. -/
def youngTables : Tables ℚ :=
  { demoTables with
    decisions := [⟨20000 * 86400000000, "demo", none⟩, ⟨20003 * 86400000000, "paper", some 800⟩,
      ⟨20005 * 86400000000 + 5, "demo", some 9600000⟩] }

theorem reset_permanent_iff_demo :
    NoDecisionBefore "demo" demoNow youngTables.decisions ∧
    ∀ s, (system demoNow).Reaches (reset youngTables ["demo"]) s → NoEarlier "demo" demoNow s := by
  have hnone : NoDecisionBefore "demo" demoNow youngTables.decisions := by
    unfold NoDecisionBefore
    decide +kernel
  exact ⟨hnone, (reset_permanent_iff youngTables (by decide)).mpr hnone⟩

/-- The boot after a reset puts the row of five days before back. -/
theorem reset_undone :
    (reset demoTables ["demo"]).snapshots ⟨.coin, "demo", 20000⟩ = none ∧
    ((system demoNow).run (reset demoTables ["demo"]) [.boot true]).snapshots
      ⟨.coin, "demo", 20000⟩ =
        some ⟨20000 * 86400000000, "KRW", none, none, 9500000⟩ ∧
    ¬ ∀ s, (system demoNow).Reaches (reset demoTables ["demo"]) s → NoEarlier "demo" demoNow s := by
  refine ⟨rfl, rfl, ?_⟩
  intro hall
  have hboot := hall _ (System.Reaches.start.step (Event.boot true) trivial)
  exact absurd (hboot ⟨.coin, "demo", 20000⟩ rfl rfl) (by decide +kernel)

end Demo

end QuantTrader.Equity
