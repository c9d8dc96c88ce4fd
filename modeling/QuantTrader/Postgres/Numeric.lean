import QuantTrader.Decimal.Context
import QuantTrader.Transition.Run

/-! # NUMERIC columns

A `NUMERIC(p,s)` column holds NaN or a multiple of `10^-s` below `10^(p-s)`.
Storing rounds half away from zero and fails outside the range; SQL arithmetic
before it is exact, quotients included.
-/

namespace QuantTrader.Postgres

/-- The errors a statement of this schema can raise. -/
inductive DbError where
  | numericOverflow
  | divisionByZero
  | checkViolation
  | notNullViolation
  | foreignKeyViolation
  | uniqueViolation
  deriving DecidableEq, Repr

/-- The unit of the last stored decimal. -/
def unit (s : ℕ) : ℚ := ((10 : ℚ) ^ s)⁻¹

theorem unit_pos (s : ℕ) : 0 < unit s := by unfold unit; positivity

def roundTo (s : ℕ) (x : ℚ) : ℚ := Nearest.halfUp.toGrid (unit s) x

theorem onGrid_roundTo (s : ℕ) (x : ℚ) : OnGrid (unit s) (roundTo s x) := Nearest.onGrid_toGrid _ _ _

theorem roundTo_of_onGrid {s : ℕ} {x : ℚ} (h : OnGrid (unit s) x) : roundTo s x = x :=
  Nearest.toGrid_of_onGrid _ (unit_pos s) h

theorem roundTo_eq_self_iff {s : ℕ} {x : ℚ} : roundTo s x = x ↔ OnGrid (unit s) x :=
  ⟨fun h => h ▸ onGrid_roundTo s x, roundTo_of_onGrid⟩

theorem roundTo_error (s : ℕ) (x : ℚ) : |roundTo s x - x| ≤ unit s / 2 :=
  Nearest.toGrid_error _ (unit_pos s) x

theorem roundTo_nonneg (s : ℕ) {x : ℚ} (h : 0 ≤ x) : 0 ≤ roundTo s x :=
  Nearest.toGrid_nonneg _ (unit_pos s) h

theorem abs_roundTo_le {s : ℕ} {x y : ℚ} (hy : OnGrid (unit s) y) (h : |x| ≤ y) :
    |roundTo s x| ≤ y :=
  Nearest.abs_toGrid_le _ (unit_pos s) hy h

/-- A loss of less than half a unit is rounded away. -/
theorem le_roundTo {s : ℕ} {x y : ℚ} (hy : OnGrid (unit s) y) (h : y - unit s / 2 < x) :
    y ≤ roundTo s x := by
  rcases le_or_gt y x with hx | hx
  · exact Nearest.le_toGrid _ (unit_pos s) hy hx
  · refine (Nearest.toGrid_eq_of_abs_sub_lt _ (unit_pos s) hy ?_).ge
    rw [abs_lt]
    constructor <;> linarith [unit_pos s]

theorem roundTo_le {s : ℕ} {x y : ℚ} (hy : OnGrid (unit s) y) (h : x < y + unit s / 2) :
    roundTo s x ≤ y := by
  rcases le_or_gt x y with hx | hx
  · exact Nearest.toGrid_le _ (unit_pos s) hy hx
  · refine (Nearest.toGrid_eq_of_abs_sub_lt _ (unit_pos s) hy ?_).le
    rw [abs_lt]
    constructor <;> linarith [unit_pos s]

/-- The bound on the integer part of a `NUMERIC(p,s)`. -/
def bound (p s : ℕ) : ℚ := 10 ^ (p - s)

/-- The values a `NUMERIC(p,s)` column can hold. -/
def InNumeric (p s : ℕ) : Decimal → Prop
  | .fin x => OnGrid (unit s) x ∧ |x| < bound p s
  | .inf _ => False
  | .nan => True

abbrev Numeric (p s : ℕ) := {d : Decimal // InNumeric p s d}

/-- A CHECK `>= 0`, which NaN passes: it sorts above every number. -/
def NonNeg : Decimal → Prop
  | .fin x => 0 ≤ x
  | .inf negative => negative = false
  | .nan => True

instance : DecidablePred NonNeg := fun d => match d with
  | .fin x => inferInstanceAs (Decidable (0 ≤ x))
  | .inf negative => inferInstanceAs (Decidable (negative = false))
  | .nan => isTrue trivial

/-- A stored numeric value that passed its CHECK `>= 0`. -/
abbrev NonNegNumeric (p s : ℕ) := {n : Numeric p s // NonNeg n.val}

/-- Assignment to a `NUMERIC(p,s)` column. -/
def store (p s : ℕ) : Decimal → Except DbError (Numeric p s)
  | .nan => .ok ⟨.nan, trivial⟩
  | .inf _ => .error .numericOverflow
  | .fin x =>
    if h : |roundTo s x| < bound p s then .ok ⟨.fin (roundTo s x), onGrid_roundTo s x, h⟩
    else .error .numericOverflow

/-- The CHECK of a column that was just assigned. -/
def check {p s : ℕ} (n : Numeric p s) : Except DbError (NonNegNumeric p s) :=
  if h : NonNeg n.val then .ok ⟨n, h⟩ else .error .checkViolation

theorem store_fin_iff {p s : ℕ} {x : ℚ} {n : Numeric p s} :
    store p s (.fin x) = .ok n ↔ |roundTo s x| < bound p s ∧ n.val = .fin (roundTo s x) := by
  simp only [store]
  split_ifs with h
  · simp only [Except.ok.injEq, h, true_and, Subtype.ext_iff]; exact eq_comm
  · simp [h]

theorem store_of_onGrid {p s : ℕ} {x : ℚ} {n : Numeric p s} (hx : OnGrid (unit s) x) :
    store p s (.fin x) = .ok n ↔ |x| < bound p s ∧ n.val = .fin x := by
  rw [store_fin_iff, roundTo_of_onGrid hx]

theorem store_error {p s : ℕ} {d : Decimal} {e : DbError} (h : store p s d = .error e) :
    e = .numericOverflow := by
  unfold store at h
  split at h
  · cases h
  · exact (Except.error.inj h).symm
  · split_ifs at h; exact (Except.error.inj h).symm

theorem check_ok {p s : ℕ} {n : Numeric p s} {m : NonNegNumeric p s} (h : check n = .ok m) :
    m.val = n := by
  unfold check at h
  split_ifs at h
  exact congrArg Subtype.val (Except.ok.inj h).symm

theorem check_of_nonneg {p s : ℕ} {n : Numeric p s} (h : NonNeg n.val) : check n = .ok ⟨n, h⟩ :=
  dif_pos h

theorem store_val {p s : ℕ} (n : Numeric p s) : store p s n.val = .ok n := by
  obtain ⟨d, h⟩ := n
  cases d with
  | fin x =>
    rw [store_fin_iff, roundTo_of_onGrid h.1]
    exact ⟨h.2, rfl⟩
  | inf b => exact h.elim
  | nan => rfl

/-- The stored value with a given integer coefficient. -/
def ofCoeff (p s : ℕ) (n : ℤ) (h : |(n : ℚ) * unit s| < bound p s) : Numeric p s :=
  ⟨.fin (n * unit s), ⟨n, rfl⟩, h⟩

/-! ## SQL arithmetic -/

def add : Decimal → Decimal → Decimal
  | .nan, _ | _, .nan => .nan
  | .inf n, .inf m => if n = m then .inf n else .nan
  | .inf n, .fin _ | .fin _, .inf n => .inf n
  | .fin x, .fin y => .fin (x + y)

def sub (x y : Decimal) : Decimal := add x (Context.neg y)

def mul : Decimal → Decimal → Decimal
  | .nan, _ | _, .nan => .nan
  | .inf n, .inf m => .inf (n != m)
  | .inf n, .fin y | .fin y, .inf n => if y = 0 then .nan else .inf (n != decide (y < 0))
  | .fin x, .fin y => .fin (x * y)

/-- Division by `NULLIF(y, 0)`: NULL when `y` is zero. -/
def divNullif : Decimal → Decimal → Option Decimal
  | x, .fin y =>
    if y = 0 then none else
      match x with
      | .nan => some .nan
      | .inf n => some (.inf (n != decide (y < 0)))
      | .fin x => some (.fin (x / y))
  | .nan, _ | _, .nan => some .nan
  | .inf _, .inf _ => some .nan
  | .fin _, .inf _ => some (.fin 0)

@[simp] theorem add_fin (x y : ℚ) : add (.fin x) (.fin y) = .fin (x + y) := rfl
@[simp] theorem mul_fin (x y : ℚ) : mul (.fin x) (.fin y) = .fin (x * y) := rfl

@[simp] theorem sub_fin (x y : ℚ) : sub (.fin x) (.fin y) = .fin (x - y) := by
  rw [sub_eq_add_neg]; rfl

end QuantTrader.Postgres
