import Mathlib.Data.List.Forall2
import QuantTrader.Rebalance.Executable
import QuantTrader.Transition.System

/-! # The daily job, boot after boot

A boot ends at once if a decision of the UTC day is recorded. Otherwise it plans on
bars that are not stale and settles the plan decision by decision, the order and its
record in one transaction. It can end at any point, and other programs write the
ledger while it runs; no two boots run side by side.
-/

namespace QuantTrader.Rebalance

open Ledger Postgres Transition

/-- The UTC day of a time in microseconds, in days since the epoch. -/
def utcDay (t : ℤ) : ℤ := t / 86400000000

/-- `_MAX_STALE_DAYS`. -/
def maxStaleDays : ℤ := 3

inductive StaleReason
  | noHistory
  | behind (last lag : ℤ)
  deriving DecidableEq, Repr

/-- A row of `trade_decisions`. -/
structure DecisionRow (S : Type) where
  decisionId : String
  runTs : ℤ
  barDate : Option ℤ
  accountId : String
  symbol : String
  price : Option (Numeric 20 4)
  targetWeight : Option (Numeric 10 6)
  action : Action
  quantity : Option (Numeric 28 12)
  amountKrw : Option (Numeric 20 4)
  equity : Option (Numeric 20 4)
  reason : String
  signals : List S
  executed : Bool

def storeNull (p s : ℕ) : Option ℚ → Except DbError (Option (Numeric p s))
  | none => .ok none
  | some x => some <$> store p s (.fin x)

/-- The cast of a float to `NUMERIC`, which keeps fifteen digits. -/
def float8Numeric (x : ℚ) : ℚ := Nearest.halfEven.toDigits 15 x

section Statements

variable {S : Type}

/-- `stale_bar_reason`. -/
def staleBarReason (analysis : List (String × Analysis ℤ S)) (today : ℤ) : Option StaleReason :=
  match (analysis.filterMap fun e => e.2.barDate).max? with
  | none => some .noHistory
  | some last =>
    if maxStaleDays < today - last then some (.behind last (today - last)) else none

/-- `_already_ran_today`: a row of `trade_decisions` from the start of the day on. -/
def alreadyRanToday (rows : List (DecisionRow S)) (now : ℤ) : Bool :=
  rows.any fun r => utcDay now * 86400000000 ≤ r.runTs

def rowOf (runTs : ℤ) (d : Decision ℤ S) (executed : Bool) (decisionId : String) :
    Except DbError (DecisionRow S) := do
  let price ← storeNull 20 4 d.price
  let targetWeight ← storeNull 10 6 (d.target.map float8Numeric)
  let quantity ← storeNull 28 12 d.quantity
  let amountKrw ← storeNull 20 4 d.amount
  let equity ← storeNull 20 4 d.equity
  return ⟨decisionId, runTs, d.barDate, d.accountId, d.symbol, price, targetWeight, d.action,
    quantity, amountKrw, equity, d.reason, d.signals, executed⟩

/-- `_record_decision`, under the constraints of the table. -/
def recordDecision (db : Db) (rows : List (DecisionRow S)) (row : DecisionRow S) :
    Except DbError (List (DecisionRow S)) :=
  if rows.any (·.decisionId == row.decisionId) then .error .uniqueViolation
  else if (db.accounts row.accountId).isNone then .error .foreignKeyViolation
  else .ok (rows ++ [row])

end Statements

/-- What a boot is at. -/
inductive Job (S : Type)
  | idle
  | planning
  | planned (ds : List (Decision ℤ S))
  | deciding (runTs : ℤ) (rest : List (Decision ℤ S))

structure World (S : Type) where
  session : Session
  decisions : List (DecisionRow S)
  clock : ℤ
  job : Job S

inductive Event (S : Type)
  | wait (t : ℤ)
  /-- Another program writes the ledger. -/
  | outside (db : Db)
  /-- The guard lets a boot through. -/
  | boot
  /-- The bars, the accounts and the prices are read, and the plan is made. -/
  | plan (analysis : List (String × Analysis ℤ S)) (snapshots : List (String × Snapshot))
  /-- `run_ts` is read off the clock. -/
  | stamp
  /-- The transaction of the next decision commits. -/
  | commit
  /-- The boot ends, or a transaction that has drawn `k` ids is rolled back and ends it. -/
  | stop (k : ℕ)

section Runs

variable (c : Context) (uuid4 : ℕ → String) (band : ℚ) {S : Type}

/-- The transaction of one decision: its order is settled, and it is recorded. -/
def settleDecision (s : Session) (rows : List (DecisionRow S)) (runTs : ℤ) (d : Decision ℤ S) :
    Except Raise (Session × List (DecisionRow S)) := do
  let (s, out) ← executeDecision c uuid4 s d
  let row ← Raise.pg (rowOf runTs d (out = some .applied) (uuid4 s.drawn))
  let rows ← Raise.pg (recordDecision s.db rows row)
  return (⟨s.db, s.drawn + 1⟩, rows)

/-- The plan of a boot at a time: the bars are fresh, the keys of the dictionaries are distinct. -/
structure Plans (now : ℤ) (analysis : List (String × Analysis ℤ S))
    (snapshots : List (String × Snapshot)) (ds : List (Decision ℤ S)) : Prop where
  fresh : staleBarReason analysis (utcDay now) = none
  symbols : (analysis.map Prod.fst).Nodup
  accounts : (snapshots.map Prod.fst).Nodup
  plan : planDecisions c band analysis snapshots = .ok ds

/-- The world after the transaction of the next decision, if it commits. -/
def World.commit (w : World S) : Option (World S) :=
  match w.job with
  | .deciding runTs (d :: rest) =>
    match settleDecision c uuid4 w.session w.decisions runTs d with
    | .ok (session, decisions) => some { w with session, decisions, job := .deciding runTs rest }
    | .error _ => none
  | _ => none

def World.Enabled (w : World S) : Event S → Prop
  | .wait t => w.clock ≤ t
  | .outside _ => True
  | .boot => w.job = .idle ∧ alreadyRanToday w.decisions w.clock = false
  | .plan analysis snapshots => w.job = .planning ∧ ∃ ds, Plans c band w.clock analysis snapshots ds
  | .stamp => ∃ ds, w.job = .planned ds
  | .commit => (w.commit c uuid4).isSome
  | .stop _ => w.job ≠ .idle

def World.next (w : World S) : Event S → World S
  | .wait t => { w with clock := t }
  | .outside db => { w with session := { w.session with db } }
  | .boot => { w with job := .planning }
  | .plan analysis snapshots =>
    match planDecisions c band analysis snapshots with
    | .ok ds => { w with job := .planned ds }
    | .error _ => w
  | .stamp =>
    match w.job with
    | .planned ds => { w with job := .deciding w.clock ds }
    | _ => w
  | .commit => (w.commit c uuid4).getD w
  | .stop k => { w with session := { w.session with drawn := w.session.drawn + k }, job := .idle }

instance (w : World S) : Decidable (w.job = .idle) :=
  match h : w.job with
  | .idle => isTrue rfl
  | .planning | .planned _ | .deciding _ _ => isFalse (by simp)

instance (w : World S) : Decidable (w.job = .planning) :=
  match h : w.job with
  | .planning => isTrue rfl
  | .idle | .planned _ | .deciding _ _ => isFalse (by simp)

instance (w : World S) : Decidable (∃ ds, w.job = .planned ds) :=
  match h : w.job with
  | .planned ds => isTrue ⟨ds, rfl⟩
  | .idle | .planning | .deciding _ _ => isFalse (by simp)

instance (now : ℤ) (analysis : List (String × Analysis ℤ S))
    (snapshots : List (String × Snapshot)) :
    Decidable (∃ ds, Plans c band now analysis snapshots ds) :=
  decidable_of_iff (staleBarReason analysis (utcDay now) = none ∧ (analysis.map Prod.fst).Nodup ∧
      (snapshots.map Prod.fst).Nodup ∧ (planDecisions c band analysis snapshots).isOk = true) (by
    constructor
    · rintro ⟨hfresh, hsymbols, haccounts, hok⟩
      obtain ⟨ds, hds⟩ := exists_ok_of_isOk hok
      exact ⟨ds, hfresh, hsymbols, haccounts, hds⟩
    · rintro ⟨ds, h⟩
      exact ⟨h.fresh, h.symbols, h.accounts, by rw [h.plan]; rfl⟩)

instance decidableEnabled (w : World S) : (e : Event S) → Decidable (w.Enabled c uuid4 band e)
  | .wait t => inferInstanceAs (Decidable (w.clock ≤ t))
  | .outside _ => isTrue trivial
  | .boot => inferInstanceAs (Decidable (_ ∧ _))
  | .plan analysis snapshots =>
    inferInstanceAs (Decidable (w.job = .planning ∧
      ∃ ds, Plans c band w.clock analysis snapshots ds))
  | .stamp => inferInstanceAs (Decidable (∃ ds, w.job = .planned ds))
  | .commit => inferInstanceAs (Decidable ((w.commit c uuid4).isSome = true))
  | .stop _ => inferInstanceAs (Decidable (w.job ≠ .idle))

def dailyJob : System (World S) (Event S) := ⟨World.Enabled c uuid4 band, World.next c uuid4 band⟩

end Runs

/-! ## One transaction -/

section Transactions

variable {c : Context} {uuid4 : ℕ → String} {band : ℚ} {S : Type} {d : Decision ℤ S}
  {r : DecisionRow S} {rows rows' : List (DecisionRow S)} {s s' : Session} {runTs now : ℤ}
  {w w' : World S} {executed : Bool} {id : String}

theorem utcDay_mono {t t' : ℤ} (h : t ≤ t') : utcDay t ≤ utcDay t' :=
  Int.ediv_le_ediv (by norm_num) h

theorem alreadyRanToday_eq_false_iff :
    alreadyRanToday rows now = false ↔ ∀ r ∈ rows, utcDay r.runTs < utcDay now := by
  rw [alreadyRanToday, List.any_eq_false]
  refine forall₂_congr fun r _ => ?_
  rw [decide_eq_true_eq, not_le, utcDay, utcDay]
  omega

/-- What a row says about its decision. -/
structure Recorded (runTs : ℤ) (d : Decision ℤ S) (r : DecisionRow S) : Prop where
  runTs : r.runTs = runTs
  barDate : r.barDate = d.barDate
  accountId : r.accountId = d.accountId
  symbol : r.symbol = d.symbol
  price : storeNull 20 4 d.price = .ok r.price
  targetWeight : storeNull 10 6 (d.target.map float8Numeric) = .ok r.targetWeight
  action : r.action = d.action
  quantity : storeNull 28 12 d.quantity = .ok r.quantity
  amountKrw : storeNull 20 4 d.amount = .ok r.amountKrw
  equity : storeNull 20 4 d.equity = .ok r.equity
  reason : r.reason = d.reason
  signals : r.signals = d.signals

theorem rowOf_ok_iff : rowOf runTs d executed id = .ok r ↔
    Recorded runTs d r ∧ r.executed = executed ∧ r.decisionId = id := by
  simp only [rowOf, bind_ok_iff]
  constructor
  · rintro ⟨price, hp, tw, ht, q, hq, am, ha, eq, he, h⟩
    obtain rfl := Except.ok.inj h
    exact ⟨⟨rfl, rfl, rfl, rfl, hp, ht, rfl, hq, ha, he, rfl, rfl⟩, rfl, rfl⟩
  · rintro ⟨hr, rfl, rfl⟩
    refine ⟨_, hr.price, _, hr.targetWeight, _, hr.quantity, _, hr.amountKrw, _, hr.equity, ?_⟩
    obtain ⟨_, _, _, _, _, _, _, _, _, _, _, _, _, _⟩ := r
    obtain ⟨rfl, rfl, rfl, rfl, -, -, rfl, -, -, -, rfl, rfl⟩ := hr
    rfl

/-- What a committed transaction does. -/
structure Commits (c : Context) (uuid4 : ℕ → String) (s : Session) (rows : List (DecisionRow S))
    (runTs : ℤ) (d : Decision ℤ S) (s₁ : Session) (out : Option Outcome) (r : DecisionRow S) :
    Prop where
  executed : executeDecision c uuid4 s d = .ok (s₁, out)
  recorded : Recorded runTs d r
  outcome : r.executed = decide (out = some .applied)
  decisionId : r.decisionId = uuid4 s₁.drawn
  fresh : ∀ r' ∈ rows, r'.decisionId ≠ r.decisionId
  account : (s₁.db.accounts r.accountId).isSome

theorem settleDecision_ok_iff : settleDecision c uuid4 s rows runTs d = .ok (s', rows') ↔
    ∃ s₁ out r, Commits c uuid4 s rows runTs d s₁ out r ∧ s' = ⟨s₁.db, s₁.drawn + 1⟩ ∧
      rows' = rows ++ [r] := by
  simp only [settleDecision, bind_ok_iff, Raise.pg_ok_iff]
  constructor
  · rintro ⟨⟨s₁, out⟩, he, r, hr, rows₁, hrec, h⟩
    obtain ⟨hrow, hout, hid⟩ := rowOf_ok_iff.mp hr
    unfold recordDecision at hrec
    split_ifs at hrec with hany hacct
    obtain rfl := Except.ok.inj hrec
    cases h
    refine ⟨s₁, out, r, ⟨he, hrow, hout, hid, ?_, ?_⟩, rfl, rfl⟩
    · simpa using hany
    · simpa [Option.isSome_iff_ne_none] using hacct
  · rintro ⟨s₁, out, r, h, rfl, rfl⟩
    refine ⟨(s₁, out), h.executed, r, rowOf_ok_iff.mpr ⟨h.recorded, h.outcome, h.decisionId⟩,
      rows ++ [r], ?_, rfl⟩
    have hany : ¬ (rows.any (·.decisionId == r.decisionId) = true) := by simpa using h.fresh
    have hacct : ¬ ((s₁.db.accounts r.accountId).isNone = true) := by
      simpa [Option.isSome_iff_ne_none] using h.account
    rw [recordDecision, if_neg hany, if_neg hacct]

theorem commit_eq_some_iff : w.commit c uuid4 = some w' ↔
    ∃ runTs d rest session decisions, w.job = .deciding runTs (d :: rest) ∧
      settleDecision c uuid4 w.session w.decisions runTs d = .ok (session, decisions) ∧
      w' = { w with session, decisions, job := .deciding runTs rest } := by
  unfold World.commit
  split
  · rename_i runTs d rest hjob
    cases hs : settleDecision c uuid4 w.session w.decisions runTs d with
    | error e => simp [hjob, hs]
    | ok p =>
      obtain ⟨session, decisions⟩ := p
      simp only [hjob, Option.some.injEq, Job.deciding.injEq, List.cons.injEq]
      constructor
      · rintro rfl
        exact ⟨_, _, _, _, _, ⟨rfl, rfl, rfl⟩, hs, rfl⟩
      · rintro ⟨_, _, _, _, _, ⟨rfl, rfl, rfl⟩, hs', rfl⟩
        obtain ⟨rfl, rfl⟩ := Prod.mk.inj (Except.ok.inj (hs.symm.trans hs'))
        rfl
  · rename_i hne
    constructor
    · exact nofun
    · rintro ⟨runTs, d, rest, _, _, hjob, -⟩
      exact absurd hjob (hne runTs d rest)

end Transactions

/-! ## The keys of a plan -/

section Keys

variable {c : Context} {band : ℚ} {B S : Type} {p : Plan} {acct : String}
  {prices : String → Option ℚ} {ds : List (Decision B S)}

/-- The primary key a decision would have within one run. -/
def Decision.key (d : Decision B S) : String × String := (d.accountId, d.symbol)

theorem planAccount_keys {items : List (String × Analysis B S)}
    (h : planAccount c band acct prices p items = .ok ds) :
    ds.map Decision.key = items.map fun e => (acct, e.1) := by
  induction items generalizing p ds with
  | nil =>
    obtain rfl := Except.ok.inj h
    rfl
  | cons item items ih =>
    simp only [planAccount, bind_ok_iff] at h
    obtain ⟨⟨d, p'⟩, hd, ds', hds, h⟩ := h
    obtain rfl := Except.ok.inj h
    obtain ⟨hacct, hsym, -⟩ := planSymbol_ok hd
    rw [List.map_cons, List.map_cons, ih hds, Decision.key, hacct, hsym]

/-- A plan decides every symbol of every account once, in order. -/
theorem planDecisions_keys {analysis : List (String × Analysis B S)}
    {snapshots : List (String × Snapshot)}
    (h : planDecisions c band analysis snapshots = .ok ds) :
    ds.map Decision.key = (snapshots.map Prod.fst) ×ˢ (analysis.map Prod.fst) := by
  induction snapshots generalizing ds with
  | nil =>
    obtain rfl := Except.ok.inj h
    rfl
  | cons e snapshots ih =>
    simp only [planDecisions, bind_ok_iff] at h
    obtain ⟨ds₁, h₁, ds₂, h₂, h⟩ := h
    obtain rfl := Except.ok.inj h
    rw [List.map_append, planAccount_keys h₁, ih h₂, List.map_cons, List.product_cons,
      List.map_map]
    rfl

end Keys

/-! ## The decisions of a day -/

section Days

variable {c : Context} {uuid4 : ℕ → String} {band : ℚ} {S : Type}

/-- The rows record the decisions, in order. -/
def Records (runTs : ℤ) (ds : List (Decision ℤ S)) (rows : List (DecisionRow S)) : Prop :=
  List.Forall₂ (Recorded runTs) ds rows

/-- A plan that was made by a time. -/
def PlannedBy (c : Context) (band : ℚ) (t : ℤ) (ds : List (Decision ℤ S)) : Prop :=
  ∃ now analysis snapshots, now ≤ t ∧ Plans c band now analysis snapshots ds

/-- All rows are of earlier days. -/
def Before (rows : List (DecisionRow S)) (t : ℤ) : Prop := ∀ r ∈ rows, utcDay r.runTs < utcDay t

/-- The rows of a table, boot after boot: each boot adds the beginning of a plan, on a later day
than all rows before it. -/
inductive Logged (c : Context) (band : ℚ) : List (DecisionRow S) → Prop
  | nil : Logged c band []
  | boot {rows new : List (DecisionRow S)} {runTs : ℤ} {settled rest : List (Decision ℤ S)} :
      Logged c band rows → Before rows runTs → PlannedBy c band runTs (settled ++ rest) →
      Records runTs settled new → Logged c band (rows ++ new)

/-- What holds of the rows while a boot is at its job. -/
def Phase (c : Context) (band : ℚ) (rows : List (DecisionRow S)) (clock : ℤ) : Job S → Prop
  | .idle => Logged c band rows
  | .planning => Logged c band rows ∧ Before rows clock
  | .planned ds => Logged c band rows ∧ Before rows clock ∧ PlannedBy c band clock ds
  | .deciding runTs rest => ∃ old new settled, rows = old ++ new ∧ Logged c band old ∧
      Before old runTs ∧ PlannedBy c band runTs (settled ++ rest) ∧ Records runTs settled new

variable {rows : List (DecisionRow S)} {clock clock' : ℤ} {job : Job S} {w : World S} {e : Event S}

theorem Before.mono (h : Before rows clock) (hle : clock ≤ clock') : Before rows clock' :=
  fun r hr => (h r hr).trans_le (utcDay_mono hle)

theorem PlannedBy.mono {ds : List (Decision ℤ S)} (h : PlannedBy c band clock ds)
    (hle : clock ≤ clock') : PlannedBy c band clock' ds := by
  obtain ⟨now, analysis, snapshots, hnow, hp⟩ := h
  exact ⟨now, analysis, snapshots, hnow.trans hle, hp⟩

theorem Phase.logged (h : Phase c band rows clock job) : Logged c band rows := by
  cases job with
  | idle => exact h
  | planning => exact h.1
  | planned ds => exact h.1
  | deciding runTs rest =>
    obtain ⟨old, new, settled, rfl, hlog, hbefore, hplan, hrec⟩ := h
    exact .boot hlog hbefore hplan hrec

theorem Phase.mono (h : Phase c band rows clock job) (hle : clock ≤ clock') :
    Phase c band rows clock' job := by
  cases job with
  | idle => exact h
  | planning => exact ⟨h.1, h.2.mono hle⟩
  | planned ds => exact ⟨h.1, h.2.1.mono hle, h.2.2.mono hle⟩
  | deciding runTs rest => exact h

theorem Phase.next (h : Phase c band w.decisions w.clock w.job)
    (he : w.Enabled c uuid4 band e) :
    Phase c band (w.next c uuid4 band e).decisions (w.next c uuid4 band e).clock
      (w.next c uuid4 band e).job := by
  cases e with
  | wait t => exact h.mono he
  | outside db => exact h
  | boot => exact ⟨h.logged, alreadyRanToday_eq_false_iff.mp he.2⟩
  | plan analysis snapshots =>
    obtain ⟨hjob, ds, hds⟩ := he
    rw [hjob] at h
    simp only [World.next, hds.plan]
    exact ⟨h.1, h.2, w.clock, analysis, snapshots, le_rfl, hds⟩
  | stamp =>
    obtain ⟨ds, hjob⟩ := he
    rw [hjob] at h
    simp only [World.next, hjob]
    exact ⟨w.decisions, [], [], (List.append_nil _).symm, h.1, h.2.1, h.2.2, .nil⟩
  | commit =>
    obtain ⟨w', hw'⟩ := Option.isSome_iff_exists.mp he
    obtain ⟨runTs, d, rest, session, decisions, hjob, hset, rfl⟩ := commit_eq_some_iff.mp hw'
    obtain ⟨s₁, out, r, hc, -, rfl⟩ := settleDecision_ok_iff.mp hset
    rw [hjob] at h
    obtain ⟨old, new, settled, hrows, hlog, hbefore, hplan, hrec⟩ := h
    simp only [World.next, hw', Option.getD_some]
    refine ⟨old, new ++ [r], settled ++ [d], ?_, hlog, hbefore, ?_, ?_⟩
    · rw [hrows, List.append_assoc]
    · rwa [List.append_assoc]
    · exact List.rel_append hrec (.cons hc.recorded .nil)
  | stop k => exact h.logged

theorem reaches_logged {session : Session}
    (h : (dailyJob c uuid4 band).Reaches ⟨session, [], clock, .idle⟩ w) :
    Logged c band w.decisions := by
  have hstart : Phase c band ([] : List (DecisionRow S)) clock .idle := Logged.nil
  have hphase : Phase c band w.decisions w.clock w.job := by
    induction h with
    | start => exact hstart
    | step e _ he ih => exact ih.next he
  exact hphase.logged

theorem Records.runTs {runTs : ℤ} {ds : List (Decision ℤ S)} (h : Records runTs ds rows) :
    ∀ r ∈ rows, r.runTs = runTs := by
  induction h with
  | nil =>
    intro r hr
    cases hr
  | cons hr _ ih =>
    intro r hmem
    rcases List.mem_cons.mp hmem with rfl | hmem
    · exact hr.runTs
    · exact ih r hmem

def DecisionRow.key (r : DecisionRow S) : String × String := (r.accountId, r.symbol)

theorem Records.keys {runTs : ℤ} {ds : List (Decision ℤ S)} (h : Records runTs ds rows) :
    rows.map DecisionRow.key = ds.map Decision.key := by
  induction h with
  | nil => rfl
  | cons hr _ ih => rw [List.map_cons, List.map_cons, ih, DecisionRow.key, Decision.key,
      hr.accountId, hr.symbol]

theorem PlannedBy.keys_nodup {ds : List (Decision ℤ S)} (h : PlannedBy c band clock ds) :
    (ds.map Decision.key).Nodup := by
  obtain ⟨now, analysis, snapshots, -, hp⟩ := h
  rw [planDecisions_keys hp.plan]
  exact hp.accounts.product hp.symbols

/-- Rows come day after day, and those of one day are of one run and of different keys. -/
def Ordered (r r' : DecisionRow S) : Prop :=
  utcDay r.runTs < utcDay r'.runTs ∨ r.runTs = r'.runTs ∧ r.key ≠ r'.key

theorem Logged.ordered (h : Logged c band rows) : rows.Pairwise Ordered := by
  induction h with
  | nil => exact .nil
  | @boot rows new runTs settled rest _ hbefore hplan hrec ih =>
    have hts := hrec.runTs
    refine List.pairwise_append.mpr ⟨ih, ?_, ?_⟩
    · have hkeys : (new.map DecisionRow.key).Nodup := by
        rw [hrec.keys]
        have hnodup := hplan.keys_nodup
        rw [List.map_append] at hnodup
        exact hnodup.of_append_left
      refine (List.pairwise_map.mp hkeys).imp_of_mem ?_
      intro r r' hr hr' hne
      exact Or.inr ⟨(hts r hr).trans (hts r' hr').symm, hne⟩
    · intro r hr r' hr'
      left
      rw [hts r' hr']
      exact hbefore r hr

/-- The rows of the day of a row record the beginning of one plan. -/
theorem Logged.day (h : Logged c band rows) {r : DecisionRow S} (hr : r ∈ rows) :
    ∃ settled rest, PlannedBy c band r.runTs (settled ++ rest) ∧
      Records r.runTs settled (rows.filter fun r' => utcDay r'.runTs = utcDay r.runTs) := by
  induction h with
  | nil => cases hr
  | @boot rows new runTs settled rest _ hbefore hplan hrec ih =>
    have hts := hrec.runTs
    rw [List.filter_append]
    rcases List.mem_append.mp hr with hr | hr
    · obtain ⟨settled', rest', hplan', hrec'⟩ := ih hr
      have hnew : new.filter (fun r' => utcDay r'.runTs = utcDay r.runTs) = [] := by
        refine List.filter_eq_nil_iff.mpr fun r' hr' => ?_
        have hlt := hbefore r hr
        rw [hts r' hr', decide_eq_true_eq]
        exact hlt.ne'
      rw [hnew, List.append_nil]
      exact ⟨settled', rest', hplan', hrec'⟩
    · rw [hts r hr]
      have hold : rows.filter (fun r' => utcDay r'.runTs = utcDay runTs) = [] := by
        refine List.filter_eq_nil_iff.mpr fun r' hr' => ?_
        rw [decide_eq_true_eq]
        exact (hbefore r' hr').ne
      have hall : new.filter (fun r' => utcDay r'.runTs = utcDay runTs) = new := by
        refine List.filter_eq_self.mpr fun r' hr' => ?_
        rw [hts r' hr', decide_eq_true_eq]
      rw [hold, hall, List.nil_append]
      exact ⟨settled, rest, hplan, hrec⟩

/-- However its boots end and whatever else writes the ledger, the job decides a symbol of an
account once a day at most, and the decisions of a day are the beginning of one plan that was made
by the time they carry. -/
theorem decisions_of_a_day {session : Session}
    (h : (dailyJob c uuid4 band).Reaches ⟨session, [], clock, .idle⟩ w) :
    w.decisions.Pairwise Ordered ∧ ∀ r ∈ w.decisions, ∃ settled rest,
      PlannedBy c band r.runTs (settled ++ rest) ∧
        Records r.runTs settled
          (w.decisions.filter fun r' => utcDay r'.runTs = utcDay r.runTs) := by
  have hlog := reaches_logged h
  exact ⟨hlog.ordered, fun r hr => hlog.day hr⟩

end Days

section Demo

def demoDay : ℤ := 20001 * 86400000000

def demoHour : ℤ := 3600000000

/-- Two symbols with the weight of the second one, whose newest bar is of a given day. -/
def demoBars (date : ℤ) (weight : ℚ) : List (String × Analysis ℤ Unit) :=
  [("KRW-BTC", ⟨some (1 / 2), some date, []⟩), ("KRW-XRP", ⟨some weight, some date, []⟩)]

/-- What the first day leaves. -/
def demoMorrow : Snapshot :=
  ⟨9000001225 / 10 ^ 4, [("KRW-BTC", 973518 / 10 ^ 8)], demoPrices⟩

/-- On the first day one boot ends before it decides anything and the sweeper's second one decides
both symbols; the boot of the second day ends after its first decision; the third day decides both
again. -/
def demoEvents : List (Event Unit) :=
  [.wait (demoDay + demoHour), .boot, .plan (demoBars 20000 1) [("demo", demoSnapshot)], .stop 0,
    .wait (demoDay + 2 * demoHour), .boot, .plan (demoBars 20000 1) [("demo", demoSnapshot)],
    .stamp, .commit, .commit, .stop 0, .wait (demoDay + 25 * demoHour), .boot,
    .plan (demoBars 20001 (1 / 2)) [("demo", demoMorrow)], .stamp, .commit, .stop 1,
    .wait (demoDay + 49 * demoHour), .boot,
    .plan (demoBars 20002 (1 / 2)) [("demo", demoMorrow)], .stamp, .commit, .commit, .stop 0]

def demoStart : World Unit := ⟨⟨demoDb, 0⟩, [], demoDay, .idle⟩

def demoJob : System (World Unit) (Event Unit) := dailyJob Context.default demoId (1 / 2)

instance (w : World Unit) (e : Event Unit) : Decidable (demoJob.Enabled w e) :=
  inferInstanceAs (Decidable (w.Enabled Context.default demoId (1 / 2) e))

theorem demo_allowed : demoJob.Allowed demoStart demoEvents := by decide +kernel

/-- The second buy of the first day is rejected, and after it no boot of that day is let through. -/
theorem decisions_of_a_day_demo :
    ((demoJob.run demoStart demoEvents).decisions.map fun r =>
        (utcDay r.runTs, r.symbol, r.action, r.executed)) =
        [(20001, "KRW-BTC", .buy, true), (20001, "KRW-XRP", .buy, false),
          (20002, "KRW-BTC", .hold, false), (20003, "KRW-BTC", .hold, false),
          (20003, "KRW-XRP", .buy, true)] ∧
      alreadyRanToday (demoJob.run demoStart (demoEvents.take 11)).decisions
        (demoDay + 3 * demoHour) = true ∧
      (demoJob.run demoStart demoEvents).decisions.Pairwise Ordered ∧
      ∀ r ∈ (demoJob.run demoStart demoEvents).decisions, ∃ settled rest,
        PlannedBy Context.default (1 / 2) r.runTs (settled ++ rest) ∧
          Records r.runTs settled ((demoJob.run demoStart demoEvents).decisions.filter
            fun r' => utcDay r'.runTs = utcDay r.runTs) :=
  ⟨by decide +kernel, by decide +kernel, decisions_of_a_day (.run .start demo_allowed)⟩

end Demo

end QuantTrader.Rebalance
