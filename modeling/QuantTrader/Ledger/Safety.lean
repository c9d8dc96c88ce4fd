import QuantTrader.Ledger.Book

/-! # Ledger safety

Fills delivered to a fresh ledger keep every balance and quantity a number that
is not negative, keep the holdings equal to what the executions record, and
keep the cash within a rounding step per applied fill of the exact account.
-/

namespace QuantTrader.Ledger

open Postgres Transition

variable {α : Type} {c : Context} {ε : ℚ} {db db' : Db} {fs : List Fill} {f : Fill} {b b' : Book}
  {acct sym : String}

/-- The money a fill moves, without rounding. -/
def Fill.cashFlow (f : Fill) : ℚ :=
  match f.side with
  | .buy => -(f.value + f.fee)
  | .sell => f.value - f.fee

def applies (c : Context) (db : Db) (ex : Execution) : Bool :=
  match applyExecution c db ex with
  | .ok (_, .applied) => true
  | _ => false

/-- The fills that are applied when a list of them is delivered. -/
def appliedFills (c : Context) : Db → List Fill → List Fill
  | _, [] => []
  | db, f :: fs =>
    let rest := appliedFills c (deliver c db f.toExecution) fs
    if applies c db f.toExecution then f :: rest else rest

def appliedTo (c : Context) (db : Db) (fs : List Fill) (acct : String) : List Fill :=
  (appliedFills c db fs).filter (·.accountId = acct)

/-- The bought minus the sold quantity of a symbol in execution rows. -/
def netQuantity (rows : List ExecutionRow) (acct sym : String) : Decimal :=
  rows.foldl (fun q row =>
    if row.accountId = acct ∧ row.symbol = sym then
      match row.side with
      | .buy => add q row.quantity.val
      | .sell => sub q row.quantity.val
    else q) (.fin 0)

/-- What holds of the tables after a list of fills, and of the next one. -/
structure LedgerSafe (c : Context) (tol : ℚ) (db : Db) (fs : List Fill) : Prop where
  cash : ∀ acct bal₀ x₀, db.accounts acct = some bal₀ → bal₀.val.val = .fin x₀ →
    ∃ bal x, (settle c db fs).accounts acct = some bal ∧ bal.val.val = .fin x ∧ 0 ≤ x ∧
      |x - (x₀ + ((appliedTo c db fs acct).map Fill.cashFlow).sum)| ≤
        (appliedTo c db fs acct).length * tol
  holdings : ∃ rows, (settle c db fs).executions = db.executions ++ rows ∧
    ∀ acct sym, ∃ x, held (settle c db fs) acct sym = .fin x ∧ 0 ≤ x ∧
      netQuantity rows acct sym = .fin x
  check : ∀ f : Fill,
    applyExecution c (settle c db fs) f.toExecution ≠ .error (.db .checkViolation)
  unchanged : ∀ (f : Fill) db' out,
    applyExecution c (settle c db fs) f.toExecution = .ok (db', out) → out ≠ .applied →
      db'.accounts = (settle c db fs).accounts ∧ db'.positions = (settle c db fs).positions ∧
        db'.executions = (settle c db fs).executions

/-! ## The rounding of one fill -/

/-- The tolerance of one applied fill: half a stored unit and the rounding of its amount. -/
def tolerance (ε : ℚ) : ℚ := unit 4 / 2 + 4 * 10 ^ 16 * ε

theorem cost_error {x : ℚ} (hc : c.Accurate ε) (h : f.cost c = .ok x) (hx : x < 10 ^ 16) :
    |x - (f.value + f.fee)| ≤ 4 * 10 ^ 16 * ε := by
  obtain ⟨v, hv, hx'⟩ := bind_ok_iff.mp h
  have hp := f.value_pos
  have hf := f.fee_nonneg
  have hv0 := hc.nonneg_of_finish hv hp.le
  have h₁ := hc.error_le hv
  have h₂ := hc.error_le hx'
  have e₁ := hc.error hv
  have e₂ := hc.error hx'
  rw [abs_of_pos hp] at h₁ e₁
  rw [abs_of_nonneg (add_nonneg hv0 hf)] at h₂ e₂
  have b₁ : ε * f.value ≤ ε * (2 * 10 ^ 16) := by
    refine mul_le_mul_of_nonneg_left ?_ hc.nonneg
    linarith [(abs_le.mp h₁).1, (abs_le.mp h₂).1]
  have b₂ : ε * (v + f.fee) ≤ ε * (2 * 10 ^ 16) := by
    refine mul_le_mul_of_nonneg_left ?_ hc.nonneg
    linarith [(abs_le.mp h₂).1]
  calc |x - (f.value + f.fee)| = |(x - (v + f.fee)) + (v - f.value)| := by ring_nf
    _ ≤ |x - (v + f.fee)| + |v - f.value| := abs_add_le _ _
    _ ≤ 4 * 10 ^ 16 * ε := by linarith

theorem proceeds_error {x : ℚ} (hc : c.Accurate ε) (h : f.proceeds c = .ok x)
    (hx : x < 10 ^ 16 + unit 4) : |x - (f.value - f.fee)| ≤ 4 * 10 ^ 16 * ε := by
  obtain ⟨v, hv, hx'⟩ := bind_ok_iff.mp h
  have hp := f.value_pos
  have hf := f.fee_nonneg
  have hle := f.fee_le
  have hu : unit 4 = 1 / 10 ^ 4 := by norm_num [unit]
  have h₁ := hc.error_le hv
  have h₂ := hc.error_le hx'
  have e₁ := hc.error hv
  have e₂ := hc.error hx'
  rw [abs_of_pos hp] at h₁ e₁
  have hd : |v - f.fee| ≤ 10 ^ 16 + 1 := by
    rcases abs_cases (v - f.fee) with ⟨ha, hs⟩ | ⟨ha, hs⟩
    · rw [ha] at h₂ ⊢
      linarith [(abs_le.mp h₂).1]
    · rw [ha]
      linarith [(abs_le.mp h₁).1]
  have b₁ : ε * f.value ≤ ε * (3 * 10 ^ 16 - 1) := by
    refine mul_le_mul_of_nonneg_left ?_ hc.nonneg
    linarith [(abs_le.mp h₁).1, (abs_le.mp hd).2]
  have b₂ : ε * |v - f.fee| ≤ ε * (10 ^ 16 + 1) := mul_le_mul_of_nonneg_left hd hc.nonneg
  calc |x - (f.value - f.fee)| = |(x - (v - f.fee)) + (v - f.value)| := by ring_nf
    _ ≤ |x - (v - f.fee)| + |v - f.value| := abs_add_le _ _
    _ ≤ 4 * 10 ^ 16 * ε := by linarith

/-- One settled fill moves the cash by its exact amount, up to the tolerance. -/
theorem Book.Settles.cash_error (hc : c.Accurate ε) (h : b.Settles c f b')
    (hb : b.cash < 10 ^ 16) (hb' : b'.cash < 10 ^ 16) :
    |b'.cash - (b.cash + f.cashFlow)| ≤ tolerance ε := by
  cases h with
  | @buy cost u hs hcost hle hu =>
    have hr := roundTo_error 4 (b.cash - cost)
    have he := cost_error hc hcost (by linarith)
    simp only [Book.buy_cash, Fill.cashFlow, hs]
    calc |roundTo 4 (b.cash - cost) - (b.cash + -(f.value + f.fee))|
        = |(roundTo 4 (b.cash - cost) - (b.cash - cost)) + -(cost - (f.value + f.fee))| := by
          ring_nf
      _ ≤ |roundTo 4 (b.cash - cost) - (b.cash - cost)| + |-(cost - (f.value + f.fee))| :=
          abs_add_le _ _
      _ ≤ tolerance ε := by rw [abs_neg, tolerance]; linarith
  | @sell p hs hle hp hgt =>
    have hr := roundTo_error 4 (b.cash + p)
    have h0 := b.cash_nonneg
    simp only [Book.sell_cash] at hb' ⊢
    have he := proceeds_error hc hp (by linarith [(abs_le.mp hr).1, unit_pos 4])
    simp only [Fill.cashFlow, hs]
    calc |roundTo 4 (b.cash + p) - (b.cash + (f.value - f.fee))|
        = |(roundTo 4 (b.cash + p) - (b.cash + p)) + (p - (f.value - f.fee))| := by ring_nf
      _ ≤ |roundTo 4 (b.cash + p) - (b.cash + p)| + |p - (f.value - f.fee)| := abs_add_le _ _
      _ ≤ tolerance ε := by rw [tolerance]; linarith

/-! ## The CHECK constraints -/

theorem check_store_error {p s : ℕ} {d : Decimal} {k : NonNegNumeric p s → Except DbError α}
    (hk : ∀ n, k n ≠ .error .checkViolation)
    (h : (do k (← check (← store p s d))) = .error .checkViolation) :
    ∃ n : Numeric p s, store p s d = .ok n ∧ ¬ NonNeg n.val := by
  rcases bind_error_iff.mp h with h | ⟨n, hn, h⟩
  · cases store_error h
  · refine ⟨n, hn, fun hnn => ?_⟩
    rw [check_of_nonneg hnn] at h
    exact hk _ h

theorem recordExecution_check {ex : Execution} :
    db.recordExecution ex ≠ .error .checkViolation := by
  intro h
  unfold Db.recordExecution at h
  rcases bind_error_iff.mp h with h | ⟨_, -, h⟩
  · cases store_error h
  rcases bind_error_iff.mp h with h | ⟨_, -, h⟩
  · cases store_error h
  rcases bind_error_iff.mp h with h | ⟨_, -, h⟩
  · cases store_error h
  split_ifs at h <;> cases h

theorem updateBalance_check {g : Decimal → Decimal} {bal : NonNegNumeric 20 4} {x : ℚ}
    (ha : db.accounts acct = some bal) (hg : g bal.val.val = .fin x) (hx : -(unit 4 / 2) < x) :
    db.updateBalance acct g ≠ .error .checkViolation := by
  intro h
  unfold Db.updateBalance at h
  simp only [ha, hg] at h
  obtain ⟨n, hn, hneg⟩ := check_store_error (by intro n h; cases h) h
  rw [(store_fin_iff.mp hn).2] at hneg
  exact hneg (le_roundTo (.zero _) (by linarith))

theorem reducePosition_check {qty : Decimal} {p : Position} {x : ℚ}
    (hp : db.positions acct sym = some p) (hq : sub p.quantity.val.val qty = .fin x) (hx : 0 ≤ x) :
    db.reducePosition acct sym qty ≠ .error .checkViolation := by
  intro h
  unfold Db.reducePosition at h
  simp only [hp, hq] at h
  obtain ⟨n, hn, hneg⟩ := check_store_error (by intro n h; cases h) h
  rw [(store_fin_iff.mp hn).2] at hneg
  exact hneg (roundTo_nonneg _ hx)

theorem upsertPosition_check {q : ℚ} {u : Decimal} (hq : 0 ≤ q)
    (hheld : ∀ p, db.positions acct sym = some p → ∃ x, p.quantity.val.val = .fin x ∧ 0 ≤ x) :
    db.upsertPosition acct sym (.fin q) u ≠ .error .checkViolation := by
  intro h
  unfold Db.upsertPosition at h
  rcases bind_error_iff.mp h with h | ⟨n, hn, h⟩
  · cases store_error h
  rcases bind_error_iff.mp h with h | ⟨avg, -, h⟩
  · cases store_error h
  have hn' : n.val = .fin (roundTo 12 q) := (store_fin_iff.mp hn).2
  have hnn : NonNeg n.val := by rw [hn']; exact roundTo_nonneg _ hq
  rw [check_of_nonneg hnn] at h
  rcases bind_error_iff.mp h with h | ⟨m, hm, h⟩
  · cases h
  cases hm
  cases hp : db.positions acct sym with
  | none =>
    simp only [hp] at h
    split_ifs at h
    cases h
  | some p =>
    obtain ⟨x, hx, hx0⟩ := hheld p hp
    simp only [hp] at h
    rcases bind_error_iff.mp h with h | ⟨_, -, h⟩
    · unfold Position.merge at h
      split at h
      · cases h
      · rcases bind_error_iff.mp h with h | ⟨_, -, h⟩
        · cases store_error h
        obtain ⟨m, hm, hneg⟩ := check_store_error (by intro n h; cases h) h
        simp only [hx, hn', add_fin] at hm
        rw [(store_fin_iff.mp hm).2] at hneg
        exact hneg (roundTo_nonneg _ (add_nonneg hx0 (roundTo_nonneg _ hq)))
    · cases h

theorem View.held_nonneg (hv : View db acct b) {p : Position}
    (hp : db.positions acct sym = some p) : ∃ x, p.quantity.val.val = .fin x ∧ 0 ≤ x :=
  ⟨_, (hv.held sym p hp).1, b.qty_nonneg sym⟩

theorem View.bookBuy_check {x : ℚ} (hv : View db f.accountId b) (hle : x ≤ b.cash) :
    Ledger.bookBuy c db f.toExecution (.fin x) ≠ .error (.db .checkViolation) := by
  intro h
  obtain ⟨bal, hbal, hb⟩ := hv.balance
  rcases bind_error_iff.mp h with h | ⟨db₁, h₁, h⟩
  · exact recordExecution_check (Raise.pg_error_iff.mp h)
  obtain ⟨row, -, -, -, -, rfl⟩ := recordExecution_ok_iff.mp (Raise.pg_ok_iff.mp h₁)
  rcases bind_error_iff.mp h with h | ⟨db₂, h₂, h⟩
  · refine updateBalance_check (by exact hbal) (by rw [hb, sub_fin]) ?_ (Raise.pg_error_iff.mp h)
    linarith [unit_pos 4]
  obtain ⟨bal', -, rfl⟩ := (Db.updateBalance_ok_iff (by exact hbal)).mp (Raise.pg_ok_iff.mp h₂)
  rcases bind_error_iff.mp h with h | ⟨u, -, h⟩
  · exact Raise.py_ne_db h
  · exact absurd (Raise.pg_error_iff.mp h)
      (upsertPosition_check f.qty_pos.le fun p hp => hv.held_nonneg hp)

theorem View.bookSell_check {p : Position} (hc : c.Accurate ε) (hv : View db f.accountId b)
    (hp : db.positions f.accountId f.symbol = some p) (hle : f.qty ≤ b.qty f.symbol) :
    Ledger.bookSell c db f.toExecution ≠ .error (.db .checkViolation) := by
  intro h
  obtain ⟨bal, hbal, hb⟩ := hv.balance
  obtain ⟨hpq, -⟩ := hv.held _ _ hp
  rcases bind_error_iff.mp h with h | ⟨db₁, h₁, h⟩
  · exact recordExecution_check (Raise.pg_error_iff.mp h)
  obtain ⟨row, -, -, -, -, rfl⟩ := recordExecution_ok_iff.mp (Raise.pg_ok_iff.mp h₁)
  rcases bind_error_iff.mp h with h | ⟨d, hd, h⟩
  · exact Raise.py_ne_db h
  obtain ⟨x, hx, rfl⟩ := f.proceeds_toExecution.mp (Raise.py_ok_iff.mp hd)
  rcases bind_error_iff.mp h with h | ⟨db₂, h₂, h⟩
  · refine updateBalance_check (by exact hbal) (by rw [hb, add_fin]) ?_ (Raise.pg_error_iff.mp h)
    linarith [f.proceeds_gt hc hx, b.cash_nonneg]
  obtain ⟨bal', -, rfl⟩ := (Db.updateBalance_ok_iff (by exact hbal)).mp (Raise.pg_ok_iff.mp h₂)
  exact reducePosition_check (by exact hp) (by rw [hpq]; exact sub_fin _ _) (sub_nonneg.mpr hle)
    (Raise.pg_error_iff.mp h)

/-- A fill for a known account violates no CHECK. -/
theorem View.no_check (hc : c.Accurate ε) (hv : View db f.accountId b) :
    applyExecution c db f.toExecution ≠ .error (.db .checkViolation) := by
  intro h
  obtain ⟨bal, hbal, hb⟩ := hv.balance
  unfold applyExecution at h
  split_ifs at h
  cases hs : f.toExecution.side with
  | buy =>
    simp only [hs, applyBuy] at h
    rcases bind_error_iff.mp h with h | ⟨cost, hcost, h⟩
    · exact Raise.py_ne_db h
    rw [Raise.py_ok_iff] at hcost
    obtain ⟨x, hx, rfl⟩ := f.cost_toExecution.mp hcost
    simp only [Fill.toExecution_accountId, hbal, hb, Decimal.lt_fin] at h
    rcases bind_error_iff.mp h with h | ⟨cmp, hcmp, h⟩
    · exact Raise.py_ne_db h
    obtain rfl : decide (b.cash < x) = cmp := Except.ok.inj (Raise.py_ok_iff.mp hcmp)
    split_ifs at h with hlt
    rcases bind_error_iff.mp h with h | ⟨_, -, h⟩
    · exact hv.bookBuy_check (by simpa using hlt) h
    · cases h
  | sell =>
    simp only [hs, applySell] at h
    cases hp : db.positions f.accountId f.symbol with
    | none => simp [hp] at h
    | some p =>
      obtain ⟨hpq, -⟩ := hv.held _ _ hp
      simp only [Fill.toExecution_accountId, Fill.toExecution_symbol, hp, hpq,
        Fill.toExecution_quantity, Decimal.lt_fin] at h
      rcases bind_error_iff.mp h with h | ⟨cmp, hcmp, h⟩
      · exact Raise.py_ne_db h
      obtain rfl : decide (b.qty f.symbol < f.qty) = cmp := Except.ok.inj (Raise.py_ok_iff.mp hcmp)
      split_ifs at h with hlt
      rcases bind_error_iff.mp h with h | ⟨_, -, h⟩
      · exact hv.bookSell_check hc hp (by simpa using hlt) h
      · cases h

/-! ## One delivered fill -/

/-- The account is a book, or does not exist and holds nothing. -/
def Tracked (db : Db) (acct : String) : Prop :=
  (∃ b, View db acct b) ∨ (db.accounts acct = none ∧ ∀ s, db.positions acct s = none)

/-- The delivery of a fill is applied or changes no table but `orders`. -/
theorem deliver_fill (hc : c.Accurate ε) (hk : Tracked db f.accountId) :
    (applies c db f.toExecution = false ∧ (deliver c db f.toExecution).accounts = db.accounts ∧
      (deliver c db f.toExecution).positions = db.positions ∧
      (deliver c db f.toExecution).executions = db.executions) ∨
    (applies c db f.toExecution = true ∧ ∃ b b' row, View db f.accountId b ∧ b.Settles c f b' ∧
      View (deliver c db f.toExecution) f.accountId b' ∧
      OthersKept f.accountId db (deliver c db f.toExecution) ∧ StoredAs f.toExecution row ∧
      (deliver c db f.toExecution).executions = db.executions ++ [row]) := by
  cases h : applyExecution c db f.toExecution with
  | error e => left; simp [applies, deliver, h]
  | ok r =>
    obtain ⟨db', out⟩ := r
    have hd : deliver c db f.toExecution = db' := by simp only [deliver, h]
    rw [hd]
    rcases applyExecution_cases h with ⟨rfl, -, rfl⟩ | ⟨rfl, -, -, rfl⟩ | ⟨rfl, -, hcov, -⟩
    · left; simp [applies, h]
    · left; simp [applies, h]
    · right
      refine ⟨by simp [applies, h], ?_⟩
      rcases hk with ⟨b, hv⟩ | ⟨hna, hnp⟩
      · obtain ⟨⟨b', hb, hv'⟩, ho, row, hst, he⟩ := hv.applied hc h
        exact ⟨b, b', row, hv, hb, hv', ho, hst, he⟩
      · -- an account without a row covers nothing
        unfold Covers at hcov
        split at hcov
        · obtain ⟨bal, _, hbal, -⟩ := hcov
          rw [Fill.toExecution_accountId, hna] at hbal
          cases hbal
        · obtain ⟨p, hp, -⟩ := hcov
          rw [Fill.toExecution_accountId, hnp] at hp
          cases hp

theorem Book.Settles.qty (h : b.Settles c f b') (s : String) :
    b'.qty s = if f.symbol = s then
      match f.side with
      | .buy => b.qty s + f.qty
      | .sell => b.qty s - f.qty
    else b.qty s := by
  cases h with
  | buy hs _ _ _ =>
    rcases eq_or_ne s f.symbol with rfl | hne
    · simp [hs]
    · simp [hne, hne.symm]
  | sell hs _ _ _ =>
    rcases eq_or_ne s f.symbol with rfl | hne
    · simp [hs]
    · simp [hne, hne.symm]

/-! ## Runs of fills -/

theorem appliedFills_snoc : appliedFills c db (fs ++ [f]) =
    if applies c (settle c db fs) f.toExecution then appliedFills c db fs ++ [f]
    else appliedFills c db fs := by
  induction fs generalizing db with
  | nil => rfl
  | cons g fs ih =>
    have hs : settle c db (g :: fs) = settle c (deliver c db g.toExecution) fs := rfl
    rw [hs, List.cons_append, appliedFills, appliedFills, ih]
    split_ifs <;> rfl

theorem appliedTo_snoc : appliedTo c db (fs ++ [f]) acct =
    if applies c (settle c db fs) f.toExecution ∧ f.accountId = acct then
      appliedTo c db fs acct ++ [f]
    else appliedTo c db fs acct := by
  unfold appliedTo
  rw [appliedFills_snoc]
  by_cases h : applies c (settle c db fs) f.toExecution
  · by_cases ha : f.accountId = acct <;> simp [h, ha]
  · simp [h]

theorem netQuantity_snoc {rows : List ExecutionRow} {row : ExecutionRow} :
    netQuantity (rows ++ [row]) acct sym =
      if row.accountId = acct ∧ row.symbol = sym then
        match row.side with
        | .buy => add (netQuantity rows acct sym) row.quantity.val
        | .sell => sub (netQuantity rows acct sym) row.quantity.val
      else netQuantity rows acct sym := by
  simp only [netQuantity, List.foldl_append, List.foldl_cons, List.foldl_nil]

/-- What a run keeps of one account: its book, or its absence. -/
def Followed (c : Context) (tol : ℚ) (db : Db) (fs : List Fill) (rows : List ExecutionRow)
    (acct : String) : Prop :=
  (∃ bal₀ x₀ b, db.accounts acct = some bal₀ ∧ bal₀.val.val = .fin x₀ ∧
    View (settle c db fs) acct b ∧ (∀ s, netQuantity rows acct s = .fin (b.qty s)) ∧
    |b.cash - (x₀ + ((appliedTo c db fs acct).map Fill.cashFlow).sum)| ≤
      (appliedTo c db fs acct).length * tol) ∨
  (db.accounts acct = none ∧ (settle c db fs).accounts acct = none ∧
    (∀ s, (settle c db fs).positions acct s = none) ∧ ∀ s, netQuantity rows acct s = .fin 0)

theorem Followed.tracked {tol : ℚ} {rows : List ExecutionRow}
    (h : Followed c tol db fs rows acct) : Tracked (settle c db fs) acct := by
  rcases h with ⟨_, _, b, -, -, hv, -⟩ | ⟨-, hna, hnp, -⟩
  · exact Or.inl ⟨b, hv⟩
  · exact Or.inr ⟨hna, hnp⟩

theorem Followed.keep {tol : ℚ} {rows rows' : List ExecutionRow}
    (h : Followed c tol db fs rows acct)
    (ha : (settle c db (fs ++ [f])).accounts acct = (settle c db fs).accounts acct)
    (hp : (settle c db (fs ++ [f])).positions acct = (settle c db fs).positions acct)
    (hl : appliedTo c db (fs ++ [f]) acct = appliedTo c db fs acct)
    (hr : ∀ s, netQuantity rows' acct s = netQuantity rows acct s) :
    Followed c tol db (fs ++ [f]) rows' acct := by
  rcases h with ⟨bal₀, x₀, b, hbal, hx, hv, hn, he⟩ | ⟨hna, hna', hnp, hn⟩
  · refine Or.inl ⟨bal₀, x₀, b, hbal, hx, ⟨?_, ?_, ?_⟩, ?_, by rw [hl]; exact he⟩
    · rw [ha]; exact hv.balance
    · intro s hs
      exact hv.absent s (by rw [← hp]; exact hs)
    · intro s p hs
      exact hv.held s p (by rw [← hp]; exact hs)
    · intro s
      rw [hr, hn]
  · refine Or.inr ⟨hna, by rw [ha]; exact hna', ?_, ?_⟩
    · intro s
      rw [hp]; exact hnp s
    · intro s
      rw [hr, hn]

theorem Followed.settle {rows : List ExecutionRow} {row : ExecutionRow} (hc : c.Accurate ε)
    (h : Followed c (tolerance ε) db fs rows f.accountId)
    (happ : applies c (settle c db fs) f.toExecution = true)
    (hv₁ : View (Ledger.settle c db fs) f.accountId b) (hb : b.Settles c f b')
    (hv' : View (Ledger.settle c db (fs ++ [f])) f.accountId b') (hst : StoredAs f.toExecution row) :
    Followed c (tolerance ε) db (fs ++ [f]) (rows ++ [row]) f.accountId := by
  rcases h with ⟨bal₀, x₀, b₀, hbal, hx, hv, hn, he⟩ | ⟨-, hna, -, -⟩
  · obtain ⟨hcash, hqty⟩ := hv.eq hv₁
    refine Or.inl ⟨bal₀, x₀, b', hbal, hx, hv', ?_, ?_⟩
    · intro s
      have hq : row.quantity.val = .fin f.qty :=
        ((store_of_onGrid f.qty_grid).mp hst.quantity).2
      rw [netQuantity_snoc, hn, hqty, hb.qty, hst.accountId, hst.symbol, hst.side, hq]
      simp only [Fill.toExecution_accountId, Fill.toExecution_symbol, Fill.toExecution_side,
        true_and]
      split_ifs
      · cases f.side <;> simp
      · rfl
    · have hl : appliedTo c db (fs ++ [f]) f.accountId = appliedTo c db fs f.accountId ++ [f] := by
        rw [appliedTo_snoc, if_pos ⟨happ, rfl⟩]
      have hb₁ : bound 20 4 = 10 ^ 16 := by norm_num [bound]
      have herr := hb.cash_error hc (hb₁ ▸ hv₁.cash_lt) (hb₁ ▸ hv'.cash_lt)
      rw [← hcash] at herr
      rw [hl, List.map_append, List.sum_append, List.length_append]
      simp only [List.map_cons, List.map_nil, List.sum_cons, List.sum_nil, List.length_cons,
        List.length_nil, add_zero, Nat.cast_add, zero_add, Nat.cast_one]
      rw [abs_le] at he herr ⊢
      constructor <;> linarith
  · obtain ⟨bal, hbal, -⟩ := hv₁.balance
    rw [hna] at hbal
    cases hbal

/-- A ledger of numbers without positions. -/
structure Opening (db : Db) : Prop where
  balances : ∀ acct bal, db.accounts acct = some bal → bal.val.val.IsFin
  positions : ∀ acct sym, db.positions acct sym = none

theorem Opening.followed_nil {tol : ℚ} (h : Opening db) : Followed c tol db [] [] acct := by
  cases ha : db.accounts acct with
  | none => exact Or.inr ⟨ha, ha, h.positions acct, fun _ => rfl⟩
  | some bal =>
    obtain ⟨x, hx⟩ := Decimal.isFin_iff.mp (h.balances acct bal ha)
    have hn := bal.2
    have hg := bal.val.2
    rw [hx] at hn hg
    let b : Book := ⟨x, fun _ => 0, fun _ => 0, hn, hg.1, fun _ => le_rfl, fun _ => .zero _⟩
    refine Or.inl ⟨bal, x, b, ha, hx, ⟨⟨bal, ha, hx⟩, ?_, ?_⟩, fun _ => rfl, ?_⟩
    · intro s _
      rfl
    · intro s p hp
      rw [settle_nil, h.positions] at hp
      cases hp
    · simp [b, appliedTo, appliedFills]

/-- Every account stays followed over a run. -/
theorem Opening.followed (hc : c.Accurate ε) (h : Opening db) (fs : List Fill) :
    ∃ rows, (settle c db fs).executions = db.executions ++ rows ∧
      ∀ acct, Followed c (tolerance ε) db fs rows acct := by
  induction fs using List.reverseRecOn with
  | nil => exact ⟨[], by simp, fun _ => h.followed_nil⟩
  | append_singleton fs f ih =>
    obtain ⟨rows, he, hf⟩ := ih
    rcases deliver_fill hc (hf f.accountId).tracked with
      ⟨happ, ha, hp, hex⟩ | ⟨happ, b, b', row, hv, hb, hv', ho, hst, hex⟩
    · refine ⟨rows, by rw [settle_snoc, hex, he], ?_⟩
      intro acct
      refine (hf acct).keep ?_ ?_ ?_ fun _ => rfl
      · rw [settle_snoc, ha]
      · rw [settle_snoc, hp]
      · rw [appliedTo_snoc, if_neg (by simp [happ])]
    · refine ⟨rows ++ [row], by rw [settle_snoc, hex, he, List.append_assoc], ?_⟩
      intro acct
      rcases eq_or_ne f.accountId acct with rfl | hne
      · exact (hf _).settle hc happ hv hb (by rw [settle_snoc]; exact hv') hst
      · refine (hf acct).keep ?_ ?_ ?_ ?_
        · rw [settle_snoc, ho.accounts acct hne.symm]
        · rw [settle_snoc, ho.positions acct hne.symm]
        · rw [appliedTo_snoc, if_neg (by simp [hne])]
        · intro s
          have hra : row.accountId ≠ acct := by rw [hst.accountId]; exact hne
          rw [netQuantity_snoc, if_neg (by simp [hra])]

/-- The ledger is safe in every context that is accurate. -/
theorem Opening.safe (hc : c.Accurate ε) (h : Opening db) (fs : List Fill) :
    LedgerSafe c (tolerance ε) db fs := by
  obtain ⟨rows, he, hf⟩ := h.followed hc fs
  constructor
  · intro acct bal₀ x₀ hbal hx
    rcases hf acct with ⟨bal₁, x₁, b, hbal₁, hx₁, hv, -, herr⟩ | ⟨hna, -⟩
    · obtain rfl : bal₀ = bal₁ := Option.some.inj (hbal.symm.trans hbal₁)
      obtain rfl : x₀ = x₁ := Decimal.fin.inj (hx.symm.trans hx₁)
      obtain ⟨bal, hb, hbx⟩ := hv.balance
      exact ⟨bal, b.cash, hb, hbx, b.cash_nonneg, herr⟩
    · rw [hna] at hbal
      cases hbal
  · refine ⟨rows, he, ?_⟩
    intro acct sym
    rcases hf acct with ⟨-, -, b, -, -, hv, hn, -⟩ | ⟨-, -, hnp, hn⟩
    · exact ⟨b.qty sym, hv.held_eq sym, b.qty_nonneg sym, hn sym⟩
    · exact ⟨0, by rw [held, hnp], le_rfl, hn sym⟩
  · intro f hcheck
    rcases (hf f.accountId).tracked with ⟨b, hv⟩ | ⟨hna, hnp⟩
    · exact hv.no_check hc hcheck
    · unfold applyExecution at hcheck
      split_ifs at hcheck
      cases hs : f.toExecution.side with
      | buy =>
        simp only [hs, applyBuy, Fill.toExecution_accountId, hna] at hcheck
        rcases bind_error_iff.mp hcheck with hcheck | ⟨_, -, hcheck⟩
        · exact Raise.py_ne_db hcheck
        · cases hcheck
      | sell =>
        simp only [hs, applySell, Fill.toExecution_accountId, hnp] at hcheck
        cases hcheck
  · intro f db' out hok hout
    rcases applyExecution_cases hok with ⟨-, -, rfl⟩ | ⟨-, -, -, rfl⟩ | ⟨rfl, -⟩
    · exact ⟨rfl, rfl, rfl⟩
    · exact ⟨rfl, rfl, rfl⟩
    · exact absurd rfl hout

/-- With the default precision an applied fill is off by at most `0.00005` and 28-digit rounding. -/
theorem ledger_safe (h : Opening db) (fs : List Fill) :
    LedgerSafe Context.default (1 / 20000 + 2 / 10 ^ 11) db fs := by
  have ht : tolerance (5 / 10 ^ 28) = 1 / 20000 + 2 / 10 ^ 11 := by norm_num [tolerance, unit]
  rw [← ht]
  exact h.safe Context.accurate_default fs

def oneWon : Db where
  accounts a := if a = "demo" then
    some ⟨ofCoeff 20 4 10000 (by decide +kernel), by decide +kernel⟩ else none
  positions _ _ := none
  orders o := if o = "o1" then some
    ⟨"demo", "KRW-BTC", .buy, .market, none, ofCoeff 28 12 1000000000000 (by decide +kernel),
      .pending⟩ else none
  executions := []

theorem opening_oneWon : Opening oneWon where
  balances acct bal h := by
    simp only [oneWon] at h
    split_ifs at h
    obtain rfl := Option.some.inj h
    trivial
  positions _ _ := rfl

/-- A buy of one coin at a price just above half a stored unit. -/
def tinyBuy : Fill where
  executionId := "e1"
  orderId := "o1"
  accountId := "demo"
  symbol := "KRW-BTC"
  side := .buy
  price := 5000000000000000000000000000001 / 10 ^ 35
  qty := 1
  fee := 0
  rate := 0
  price_pos := by norm_num
  qty_pos := by norm_num
  qty_grid := ⟨10 ^ 12, by norm_num [unit]⟩
  rate_nonneg := le_rfl
  rate_lt := by norm_num
  fee_grid := .zero _
  fee_error := by norm_num [unit]

theorem ledger_safe_tinyBuy :
    LedgerSafe Context.default (1 / 20000 + 2 / 10 ^ 11) oneWon [tinyBuy, tinyBuy] :=
  ledger_safe opening_oneWon _

/-- The amount is cut to 28 digits before storage rounds it, so half a unit does not suffice. -/
theorem tinyBuy_exceeds : Opening oneWon ∧ ¬ LedgerSafe Context.default (1 / 20000) oneWon [tinyBuy] := by
  refine ⟨opening_oneWon, fun h => ?_⟩
  obtain ⟨bal, x, hbal, hx, -, he⟩ := h.cash "demo" _ 1 rfl (by decide +kernel)
  have hb : ((settle Context.default oneWon [tinyBuy]).accounts "demo").map (·.val.val) =
      some (.fin 1) := by decide +kernel
  rw [hbal, Option.map_some, hx, Option.some.injEq, Decimal.fin.injEq] at hb
  have ha : appliedTo Context.default oneWon [tinyBuy] "demo" = [tinyBuy] := by
    have happ : applies Context.default oneWon tinyBuy.toExecution = true := by decide +kernel
    simp only [appliedTo, appliedFills, happ, if_true]
    rfl
  rw [ha, hb] at he
  norm_num [Fill.cashFlow, Fill.value, tinyBuy] at he

/-- In exact arithmetic storage alone rounds. -/
theorem ledger_safe_exact (h : Opening db) (fs : List Fill) :
    LedgerSafe Context.exact (1 / 20000) db fs := by
  have ht : tolerance 0 = 1 / 20000 := by norm_num [tolerance, unit]
  rw [← ht]
  exact h.safe Context.accurate_exact fs

end QuantTrader.Ledger
