import QuantTrader.Ledger.StatusFrame

/-! # Exactly-once settlement

Executions are remembered by id, refusals only by the status of their order.
Deliveries therefore settle every order once exactly as long as no refused
message comes back in a state that covers it.
-/

namespace QuantTrader.Ledger

open Transition

variable {c : Context} {db db' : Db} {ms pre pre' : List Execution} {m m' : Execution}
  {o : String}

/-- `execution_id` is `uuid5` of the order id: it names the order. -/
def NamesOrder (ms : List Execution) : Prop :=
  ∀ m ∈ ms, ∀ m' ∈ ms, m.executionId = m'.executionId ↔ m.orderId = m'.orderId

/-- Every order of the messages is pending and none of the ids is recorded. -/
def Unsettled (db : Db) (ms : List Execution) : Prop :=
  ∀ m ∈ ms, db.recorded m.executionId = false ∧ db.status m.orderId = some .pending

instance : Decidable (NamesOrder ms) := by unfold NamesOrder; infer_instance

instance : Decidable (Unsettled db ms) := by unfold Unsettled; infer_instance

/-- The delivery changes a balance or a position. -/
def Moves (c : Context) (db : Db) (m : Execution) : Prop :=
  (deliver c db m).accounts ≠ db.accounts ∨ (deliver c db m).positions ≠ db.positions

/-- The outcome of every order is final and counted once. -/
structure ExactlyOnce (c : Context) (db : Db) (ms : List Execution) : Prop where
  once : ∀ pre m pre' m', pre ++ [m] <+: pre' → pre' ++ [m'] <+: ms → m.orderId = m'.orderId →
    Moves c (run c db pre) m → ¬ Moves c (run c db pre') m'
  rejected_final : ∀ pre pre' o, pre <+: pre' → pre' <+: ms →
    (run c db pre).status o = some .rejected → (run c db pre').status o ≠ some .filled
  filled_final : ∀ pre pre' o, pre <+: pre' → pre' <+: ms →
    (run c db pre).status o = some .filled → (run c db pre').status o ≠ some .rejected
  firsts : SameLedger (run c db ms) (run c db (firstsBy Execution.executionId ms))

/-- No message that was delivered before and is not recorded comes back in a state that covers it. -/
def NoLateCover (c : Context) (db : Db) (ms : List Execution) : Prop :=
  ∀ pre m, pre ++ [m] <+: ms → (∃ m₀ ∈ pre, m₀.executionId = m.executionId) →
    (run c db pre).recorded m.executionId = false → ¬ Covers c (run c db pre) m

/-! ## One delivery -/

theorem recorded_append {row : ExecutionRow} (h : db'.executions = db.executions ++ [row])
    (eid : String) : db'.recorded eid = true ↔ db.recorded eid = true ∨ row.executionId = eid := by
  simp only [Db.recorded_iff, h, List.mem_append, List.mem_singleton]
  constructor
  · rintro ⟨r, hr | rfl, he⟩
    · exact Or.inl ⟨r, hr, he⟩
    · exact Or.inr he
  · rintro (⟨r, hr, he⟩ | he)
    · exact ⟨r, Or.inl hr, he⟩
    · exact ⟨row, Or.inr rfl, he⟩

/-- What a delivery does to the record of executions and to the status of every order. -/
theorem deliver_effect (c : Context) (db : Db) (m : Execution) :
    deliver c db m = db ∨
    (db.recorded m.executionId = false ∧ ¬ Covers c db m ∧ deliver c db m = db.reject m.orderId ∧
      ∀ o, (deliver c db m).status o =
        if o = m.orderId ∧ db.status o = some .pending then some .rejected else db.status o) ∨
    (db.recorded m.executionId = false ∧ Covers c db m ∧
      (∀ eid, (deliver c db m).recorded eid = true ↔
        db.recorded eid = true ∨ m.executionId = eid) ∧
      ∀ o, (deliver c db m).status o =
        if o = m.orderId then (db.status o).map fun _ => .filled else db.status o) := by
  rcases deliver_cases c db m with h | ⟨hr, hn, h⟩ | ⟨hr, ha, mid, hm, h⟩
  · exact Or.inl h
  · exact Or.inr (Or.inl ⟨hr, hn, h, fun o => by rw [h, Db.status_reject]⟩)
  · obtain ⟨row, hid, he⟩ := hm.appends.executions
    refine Or.inr (Or.inr ⟨hr, ha, fun eid => ?_, fun o => ?_⟩)
    · rw [← hid]; exact recorded_append (by rw [h]; exact he) eid
    · have hs : mid.status o = db.status o := by simp only [Db.status, hm.appends.orders]
      rw [h, Db.status_fill, hs]

theorem recorded_deliver {eid : String} (h : db.recorded eid = true) :
    (deliver c db m).recorded eid = true := by
  rcases deliver_effect c db m with he | ⟨-, -, he, -⟩ | ⟨-, -, hr, -⟩
  · rw [he]; exact h
  · rw [he]; exact h
  · exact (hr eid).mpr (Or.inl h)

theorem recorded_of_deliver {eid : String} (h : (deliver c db m).recorded eid = true) :
    db.recorded eid = true ∨ m.executionId = eid := by
  rcases deliver_effect c db m with he | ⟨-, -, he, -⟩ | ⟨-, -, hr, -⟩
  · rw [he] at h; exact Or.inl h
  · rw [he] at h; exact Or.inl h
  · exact (hr eid).mp h

theorem isSome_orders_deliver (o : String) :
    ((deliver c db m).orders o).isSome = (db.orders o).isSome := by
  rcases deliver_cases c db m with he | ⟨-, -, he⟩ | ⟨-, -, mid, hm, he⟩
  · rw [he]
  · rw [he]; exact isSome_setStatus ..
  · rw [he, ← hm.appends.orders]; exact isSome_setStatus ..

theorem recorded_of_moves (h : Moves c db m) : (deliver c db m).recorded m.executionId = true := by
  unfold Moves at h
  rcases deliver_effect c db m with he | ⟨-, -, he, -⟩ | ⟨-, -, hr, -⟩
  · simp [he] at h
  · simp [he] at h
  · exact (hr _).mpr (Or.inr rfl)

theorem not_moves_of_recorded (h : db.recorded m.executionId = true) : ¬ Moves c db m := by
  simp [Moves, deliver_of_recorded h]

/-! ## Runs -/

theorem recorded_run {eid : String} (hp : pre <+: pre') (h : (run c db pre).recorded eid = true) :
    (run c db pre').recorded eid = true := by
  obtain ⟨post, rfl⟩ := hp
  induction post using List.reverseRecOn with
  | nil => simpa using h
  | append_singleton post a ih =>
    rw [← List.append_assoc, run_snoc]
    exact recorded_deliver ih

theorem status_run_of_unseen (h : ∀ m ∈ pre, m.orderId ≠ o) :
    (run c db pre).status o = db.status o := by
  induction pre using List.reverseRecOn with
  | nil => rfl
  | append_singleton pre a ih =>
    have ha : o ≠ a.orderId := fun he => h a (by simp) he.symm
    rw [run_snoc, ← ih fun m hm => h m (by simp [hm])]
    rcases deliver_effect c (run c db pre) a with
      he | ⟨-, -, -, hs⟩ | ⟨-, -, -, hs⟩
    · rw [he]
    · rw [hs, if_neg fun hc => ha hc.1]
    · rw [hs, if_neg ha]

/-- The orders of the messages are filled exactly when their execution is recorded. -/
theorem filled_iff_recorded (hn : NamesOrder ms) (hu : Unsettled db ms) :
    ∀ pre, pre <+: ms → ∀ m ∈ ms, ((run c db pre).status m.orderId).isSome ∧
      ((run c db pre).status m.orderId = some .filled ↔
        (run c db pre).recorded m.executionId = true) := by
  apply prefix_induction
  · intro m hm
    obtain ⟨hr, hs⟩ := hu m hm
    simp [hr, hs]
  · intro pre a ha ih m hm
    obtain ⟨hsome, hiff⟩ := ih m hm
    have hid := hn m hm a (mem_of_snoc ha)
    rw [run_snoc]
    rcases deliver_effect c (run c db pre) a with
      he | ⟨-, -, he, hs⟩ | ⟨-, -, hr, hs⟩
    · rw [he]; exact ⟨hsome, hiff⟩
    · rw [hs, show (deliver c (run c db pre) a).recorded m.executionId =
        (run c db pre).recorded m.executionId by rw [he]; rfl]
      split_ifs with hc
      · rw [hc.2] at hiff
        exact ⟨rfl, by simpa using hiff⟩
      · exact ⟨hsome, hiff⟩
    · rw [hs, hr, ← hiff]
      split_ifs with hc
      · obtain ⟨st, hst⟩ := Option.isSome_iff_exists.mp hsome
        simp [hst, hid.mpr hc]
      · exact ⟨hsome, by simp [show a.executionId ≠ m.executionId from fun h => hc (hid.mp h.symm)]⟩

/-- An order of the run is rejected only after one of its messages. -/
theorem seen_of_rejected (hu : Unsettled db ms) (hm : m ∈ ms)
    (h : (run c db pre).status m.orderId = some .rejected) :
    ∃ m₀ ∈ pre, m₀.orderId = m.orderId := by
  by_contra hc
  have hs : (run c db pre).status m.orderId = db.status m.orderId :=
    status_run_of_unseen fun m₀ h₀ he => hc ⟨m₀, h₀, he⟩
  rw [h, (hu m hm).2] at hs
  cases hs

/-- Without a late cover a rejected order stays rejected. -/
theorem rejected_run (hn : NamesOrder ms) (hu : Unsettled db ms) (h : NoLateCover c db ms)
    (hr : (run c db pre).status o = some .rejected) :
    ∀ pre', pre' <+: ms → pre <+: pre' → (run c db pre').status o = some .rejected := by
  apply prefix_induction
  · intro hp
    rw [List.prefix_nil.mp hp] at hr
    exact hr
  · intro pre' a ha ih hp
    rcases List.prefix_concat_iff.mp hp with rfl | hp
    · exact hr
    have hrej := ih hp
    rw [run_snoc]
    rcases deliver_effect c (run c db pre') a with
      he | ⟨-, -, -, hs⟩ | ⟨hrec, hcov, -, hs⟩
    · rw [he]; exact hrej
    · rw [hs, hrej]; simp
    · rw [hs]
      split_ifs with hc
      · -- the message is a redelivery of a rejected order: its guard cannot have passed
        subst hc
        have hmem := mem_of_snoc ha
        obtain ⟨m₀, h₀, he⟩ := seen_of_rejected hu hmem hrej
        have hid := (hn m₀ (((List.prefix_append pre' [a]).trans ha).subset h₀) a hmem).mpr he
        exact (h pre' a ha ⟨m₀, h₀, hid⟩ hrec hcov).elim
      · exact hrej

/-- Without a late cover the redeliveries leave the ledger alone. -/
theorem sameLedger_firsts (h : NoLateCover c db ms) :
    ∀ pre, pre <+: ms →
      SameLedger (run c db pre) (run c db (firstsBy Execution.executionId pre)) := by
  apply prefix_induction
  · exact .refl db
  · intro pre a ha ih
    rw [firstsBy_snoc, run_snoc]
    split_ifs with hseen
    · rcases deliver_effect c (run c db pre) a with
        he | ⟨-, -, he, -⟩ | ⟨hrec, hcov, -, -⟩
      · rw [he]; exact ih
      · rw [he]
        exact ⟨ih.accounts, ih.positions, ih.executions,
          fun o => (isSome_setStatus ..).trans (ih.orders o)⟩
      · exact (h pre a ha hseen hrec hcov).elim
    · rw [run_snoc]; exact ih.deliver

theorem exactlyOnce_of_noLateCover (hn : NamesOrder ms) (hu : Unsettled db ms)
    (h : NoLateCover c db ms) : ExactlyOnce c db ms where
  once pre m pre' m' hp hp' ho hm := by
    have hp₁ := (List.prefix_append pre' [m']).trans hp'
    have hid := (hn m (hp₁.subset (mem_of_snoc hp)) m' (mem_of_snoc hp')).mpr ho
    have hrec := recorded_of_moves hm
    rw [← run_snoc, hid] at hrec
    exact not_moves_of_recorded (recorded_run hp hrec)
  rejected_final pre pre' o hp hp' hr := by
    rw [rejected_run hn hu h hr pre' hp' hp]
    simp
  filled_final pre pre' o hp hp' hf hr := by
    by_cases hseen : ∃ m ∈ pre', m.orderId = o
    · obtain ⟨m, hm, rfl⟩ := hseen
      have hms := hp'.subset hm
      have hrec := (filled_iff_recorded hn hu pre (hp.trans hp') m hms).2.mp hf
      have hf' := (filled_iff_recorded hn hu pre' hp' m hms).2.mpr (recorded_run hp hrec)
      rw [hr] at hf'
      cases hf'
    · have hne : ∀ m ∈ pre', m.orderId ≠ o := fun m hm he => hseen ⟨m, hm, he⟩
      rw [status_run_of_unseen fun m hm => hne m (hp.subset hm)] at hf
      rw [status_run_of_unseen hne, hf] at hr
      cases hr
  firsts := sameLedger_firsts h ms List.prefix_rfl

/-! ## Late covers break finality -/

/-- No delivery raises. -/
def Returns (c : Context) (db : Db) (ms : List Execution) : Prop :=
  ∀ pre m, pre ++ [m] <+: ms → ∃ r, applyExecution c (run c db pre) m = .ok r

theorem settled_run (hn : NamesOrder ms) (hu : Unsettled db ms) (hret : Returns c db ms) :
    ∀ pre, pre <+: ms → ∀ m ∈ pre, (run c db pre).status m.orderId ≠ some .pending := by
  apply prefix_induction
  · simp
  · intro pre a ha ih m hm
    have hfill := filled_iff_recorded (c := c) hn hu _ ha
    have hpre := filled_iff_recorded (c := c) hn hu _ ((List.prefix_append pre [a]).trans ha)
    have hams := mem_of_snoc ha
    obtain ⟨⟨db', out⟩, hok⟩ := hret pre a ha
    have hd : run c db (pre ++ [a]) = db' := by rw [run_snoc, deliver, hok]
    rcases applyExecution_cases hok with ⟨-, hrec, rfl⟩ | ⟨-, -, -, rfl⟩ | ⟨-, -, -, mid, hmid, rfl⟩
    · rw [hd]
      rcases List.mem_append.mp hm with hm | hm
      · exact ih m hm
      · rw [List.mem_singleton.mp hm, (hpre a hams).2.mpr hrec]; simp
    · rw [hd, Db.status_reject]
      split_ifs with hc
      · simp
      · rcases List.mem_append.mp hm with hm | hm
        · exact ih m hm
        · rw [List.mem_singleton.mp hm] at hc ⊢
          exact fun h => hc ⟨rfl, h⟩
    · have hs : ∀ o, mid.status o = (run c db pre).status o := fun o => by
        simp only [Db.status, hmid.appends.orders]
      rw [hd, Db.status_fill, hs]
      split_ifs with hc
      · cases (run c db pre).status m.orderId <;> simp
      · rcases List.mem_append.mp hm with hm | hm
        · exact ih m hm
        · exact (hc (by rw [List.mem_singleton.mp hm])).elim

theorem noLateCover_of_exactlyOnce (hn : NamesOrder ms) (hu : Unsettled db ms)
    (hret : Returns c db ms) (h : ExactlyOnce c db ms) : NoLateCover c db ms := by
  rintro pre a ha ⟨m₀, h₀, hid⟩ hrec hcov
  have hp := (List.prefix_append pre [a]).trans ha
  have hams := mem_of_snoc ha
  have ho := (hn m₀ (hp.subset h₀) a hams).mp hid
  -- the order is settled and its execution is not recorded, so it is rejected
  obtain ⟨hsome, hfill⟩ := filled_iff_recorded (c := c) hn hu pre hp a hams
  obtain ⟨st, hst⟩ := Option.isSome_iff_exists.mp hsome
  have hset := ho ▸ settled_run hn hu hret pre hp m₀ h₀
  have hrej : (run c db pre).status a.orderId = some .rejected := by
    cases st with
    | pending => exact (hset hst).elim
    | filled => rw [hfill.mp hst] at hrec; cases hrec
    | rejected => exact hst
  refine h.rejected_final pre (pre ++ [a]) a.orderId (List.prefix_append pre [a]) ha hrej ?_
  obtain ⟨⟨db', out⟩, hok⟩ := hret pre a ha
  have hd : run c db (pre ++ [a]) = db' := by rw [run_snoc, deliver, hok]
  rcases applyExecution_cases hok with ⟨-, hr, -⟩ | ⟨-, -, hn', -⟩ | ⟨-, -, -, mid, hmid, rfl⟩
  · rw [hr] at hrec; cases hrec
  · exact (hn' hcov).elim
  · have hs : mid.status a.orderId = (run c db pre).status a.orderId := by
      simp only [Db.status, hmid.appends.orders]
    rw [hd, Db.status_fill, hs, hst]
    simp

/-- Orders settle exactly once when no refused message comes back covered, and only then. -/
theorem exactlyOnce_iff (hn : NamesOrder ms) (hu : Unsettled db ms) :
    (NoLateCover c db ms → ExactlyOnce c db ms) ∧
      (Returns c db ms → ExactlyOnce c db ms → NoLateCover c db ms) :=
  ⟨exactlyOnce_of_noLateCover hn hu, noLateCover_of_exactlyOnce hn hu⟩

/-! ## A refused order filled by its redelivery -/

def demoOrder (symbol : String) (side : Side) (n : ℤ)
    (h : |(n : ℚ) * Postgres.unit 12| < Postgres.bound 28 12) : OrderRow :=
  ⟨"demo", symbol, side, .market, none, Postgres.ofCoeff 28 12 n h, .pending⟩

/-- An account with 100 in cash, ten coins and two pending orders. -/
def demoDb : Db where
  accounts a := if a = "demo" then
    some ⟨Postgres.ofCoeff 20 4 1000000 (by decide +kernel), by decide +kernel⟩ else none
  positions a s := if a = "demo" ∧ s = "KRW-BTC" then
    some ⟨⟨Postgres.ofCoeff 28 12 10000000000000 (by decide +kernel), by decide +kernel⟩,
      Postgres.ofCoeff 20 4 100000 (by decide +kernel)⟩ else none
  orders o :=
    if o = "o1" then some (demoOrder "KRW-ETH" .buy 2000000000000 (by decide +kernel))
    else if o = "o2" then some (demoOrder "KRW-BTC" .sell 10000000000000 (by decide +kernel))
    else none
  executions := []

/-- A buy of two coins at 100, more than the account holds. -/
def demoBuy : Execution :=
  ⟨"e1", "o1", "demo", "KRW-ETH", .buy, .fin 100, .fin 2, .fin (1 / 10)⟩

/-- A sell of the ten coins at 50. -/
def demoSell : Execution :=
  ⟨"e2", "o2", "demo", "KRW-BTC", .sell, .fin 50, .fin 10, .fin (1 / 4)⟩

/-- The buy is refused, the sell raises the cash, and the redelivered buy is filled. -/
theorem refused_then_filled :
    NamesOrder [demoBuy, demoSell, demoBuy] ∧ Unsettled demoDb [demoBuy, demoSell, demoBuy] ∧
      ¬ ExactlyOnce Context.default demoDb [demoBuy, demoSell, demoBuy] := by
  refine ⟨by decide, by decide +kernel, fun h => ?_⟩
  refine h.rejected_final [demoBuy] [demoBuy, demoSell, demoBuy] "o1" ?_ List.prefix_rfl ?_ ?_
  · exact ⟨[demoSell, demoBuy], rfl⟩
  · decide +kernel
  · decide +kernel

/-- A redelivered sell is a duplicate: the run settles both orders once. -/
theorem exactlyOnce_demo :
    ExactlyOnce Context.default demoDb [demoBuy, demoSell, demoSell] := by
  refine (exactlyOnce_iff (by decide) (by decide +kernel)).1 ?_
  intro pre m hp hseen hrec
  match pre with
  | [] => simp at hseen
  | [a] =>
    simp only [List.cons_append, List.nil_append, List.cons_prefix_cons, List.nil_prefix,
      and_true] at hp
    obtain ⟨rfl, rfl⟩ := hp
    exact absurd hseen (by decide)
  | [a, b] =>
    simp only [List.cons_append, List.nil_append, List.cons_prefix_cons, List.nil_prefix,
      and_true] at hp
    obtain ⟨rfl, rfl, rfl⟩ := hp
    exact absurd hrec (by decide +kernel)
  | a :: b :: d :: pre => simp at hp

end QuantTrader.Ledger
