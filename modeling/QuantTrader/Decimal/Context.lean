import Mathlib.Order.WithBotTop
import QuantTrader.Decimal.Rounding

/-! # Decimal arithmetic in a context

Values are finite rationals, infinities or a quiet NaN. A context rounds every
exact result to its precision and traps invalid operations, divisions by zero
and overflow, as the default context of Python's `decimal` does. Exponents
below the default limit do not underflow here.
-/

namespace QuantTrader

/-- A decimal value; infinities carry their sign. -/
inductive Decimal where
  | fin (x : ℚ)
  | inf (negative : Bool)
  | nan
  deriving DecidableEq, Repr

/-- The trapped signals of a decimal context. -/
inductive Signal where
  | invalidOperation
  | divisionByZero
  | overflow
  deriving DecidableEq, Repr

/-- Significant digits of a result (`none` for exact rationals) and whether quotients stay exact. -/
structure Context where
  prec : Option ℕ
  exactDiv : Bool
  deriving DecidableEq, Repr

namespace Context

/-- `getcontext()` of a fresh thread: 28 digits, half-even. -/
def default : Context := ⟨some 28, false⟩

/-- The default context with quotients taken as rationals. -/
def ratDiv : Context := ⟨some 28, true⟩

/-- Exact rational arithmetic. -/
def exact : Context := ⟨none, true⟩

/-- The largest adjusted exponent of a default context. -/
def emax : ℤ := 999999

/-- Round an exact result to the precision of the context. -/
def finish (c : Context) (x : ℚ) : Except Signal ℚ :=
  match c.prec with
  | none => .ok x
  | some p =>
    let y := Nearest.halfEven.toDigits p x
    if emax < Int.log 10 |y| then .error .overflow else .ok y

/-- The context rounds no result, up to its exponent limit, and `x` is such a result. -/
def Exact (c : Context) (x : ℚ) : Prop := c.finish x = .ok x

instance (c : Context) (x : ℚ) : Decidable (c.Exact x) :=
  inferInstanceAs (Decidable (_ = _))

end Context

namespace Decimal

/-- Ordering comparisons signal on NaN. -/
def lt : Decimal → Decimal → Except Signal Bool
  | nan, _ | _, nan => .error .invalidOperation
  | fin x, fin y => .ok (decide (x < y))
  | fin _, inf neg => .ok (!neg)
  | inf neg, fin _ => .ok neg
  | inf n, inf m => .ok (n && !m)

def le : Decimal → Decimal → Except Signal Bool
  | nan, _ | _, nan => .error .invalidOperation
  | fin x, fin y => .ok (decide (x ≤ y))
  | fin _, inf neg => .ok (!neg)
  | inf neg, fin _ => .ok neg
  | inf n, inf m => .ok (n || !m)

/-- Where a value stands on the extended line; NaN stands nowhere. -/
def place : Decimal → Option (WithBotTop ℚ)
  | nan => none
  | fin x => some (WithBotTop.coe x)
  | inf true => some ⊥
  | inf false => some ⊤

/-- Values in their order on the line. -/
def AtMost (x y : Decimal) : Prop := ∃ a ∈ x.place, ∃ b ∈ y.place, a ≤ b

def Below (x y : Decimal) : Prop := ∃ a ∈ x.place, ∃ b ∈ y.place, a < b

@[simp] theorem atMost_fin (x y : ℚ) : (fin x).AtMost (fin y) ↔ x ≤ y := by
  simp [AtMost, place]

@[simp] theorem below_fin (x y : ℚ) : (fin x).Below (fin y) ↔ x < y := by
  simp [Below, place]

theorem le_true_iff {x y : Decimal} : x.le y = .ok true ↔ x.AtMost y := by
  rcases x with x | (_ | _) | _ <;> rcases y with y | (_ | _) | _ <;> simp [le, AtMost, place]

theorem le_false_iff {x y : Decimal} : x.le y = .ok false ↔ y.Below x := by
  rcases x with x | (_ | _) | _ <;> rcases y with y | (_ | _) | _ <;>
    simp [le, Below, place, bot_lt_iff_ne_bot, lt_top_iff_ne_top]

theorem AtMost.trans {x y z : Decimal} (h : x.AtMost y) (h' : y.AtMost z) : x.AtMost z := by
  obtain ⟨a, ha, b, hb, hab⟩ := h
  obtain ⟨b', hb', d, hd, hbd⟩ := h'
  obtain rfl : b = b' := Option.some.inj (hb.symm.trans hb')
  exact ⟨a, ha, d, hd, hab.trans hbd⟩

def IsFin : Decimal → Prop
  | fin _ => True
  | _ => False

instance : DecidablePred IsFin := fun d => match d with
  | fin _ => isTrue trivial
  | inf _ => isFalse id
  | nan => isFalse id

theorem isFin_iff {d : Decimal} : d.IsFin ↔ ∃ x, d = fin x := by
  cases d <;> simp [IsFin]

@[simp] theorem lt_fin (x y : ℚ) : (fin x).lt (fin y) = .ok (decide (x < y)) := rfl
@[simp] theorem le_fin (x y : ℚ) : (fin x).le (fin y) = .ok (decide (x ≤ y)) := rfl

end Decimal

namespace Context

open Decimal

variable (c : Context)

def add : Decimal → Decimal → Except Signal Decimal
  | nan, _ | _, nan => .ok nan
  | inf n, inf m => if n = m then .ok (inf n) else .error .invalidOperation
  | inf n, fin _ | fin _, inf n => .ok (inf n)
  | fin x, fin y => fin <$> c.finish (x + y)

def neg : Decimal → Decimal
  | nan => nan
  | inf n => inf (!n)
  | fin x => fin (-x)

def sub (x y : Decimal) : Except Signal Decimal := c.add x (neg y)

/-- An infinity times a finite factor: invalid at zero, else signed. -/
def mulInf (n : Bool) (y : ℚ) : Except Signal Decimal :=
  if y = 0 then .error .invalidOperation else .ok (inf (n != decide (y < 0)))

def mul : Decimal → Decimal → Except Signal Decimal
  | nan, _ | _, nan => .ok nan
  | inf n, inf m => .ok (inf (n != m))
  | inf n, fin y | fin y, inf n => mulInf n y
  | fin x, fin y => fin <$> c.finish (x * y)

/-- The quotient of finite values, for a divisor that is not zero. -/
def quot (x y : ℚ) : Except Signal ℚ := if c.exactDiv then .ok (x / y) else c.finish (x / y)

def divFin (x y : ℚ) : Except Signal ℚ :=
  if y = 0 then .error (if x = 0 then .invalidOperation else .divisionByZero) else c.quot x y

def div : Decimal → Decimal → Except Signal Decimal
  | nan, _ | _, nan => .ok nan
  | inf _, inf _ => .error .invalidOperation
  | inf n, fin y => .ok (inf (n != decide (y < 0)))
  | fin _, inf _ => .ok (fin 0)
  | fin x, fin y => fin <$> c.divFin x y

theorem div_fin {x y : ℚ} (hy : y ≠ 0) : c.div (fin x) (fin y) = fin <$> c.quot x y := by
  simp only [div, divFin, if_neg hy]

theorem sub_fin (x y : ℚ) : c.sub (fin x) (fin y) = fin <$> c.finish (x - y) := by
  rw [sub_eq_add_neg]; rfl

/-- The digits of an integer coefficient fit the precision. -/
def fits (n : ℤ) : Bool :=
  match c.prec with
  | none => true
  | some p => decide (n.natAbs < 10 ^ p)

/-- `x.quantize(10^-s)`: an invalid operation when the coefficient exceeds the precision. -/
def quantizeFin (r : Nearest ℚ) (s : ℕ) (x : ℚ) : Except Signal ℚ :=
  if c.fits (r.toInt (x / ((10 : ℚ) ^ s)⁻¹)) then .ok (r.toGrid ((10 : ℚ) ^ s)⁻¹ x)
  else .error .invalidOperation

def quantize (r : Nearest ℚ) (s : ℕ) : Decimal → Except Signal Decimal
  | nan => .ok nan
  | inf _ => .error .invalidOperation
  | fin x => fin <$> c.quantizeFin r s x

def truncate (x : ℚ) : ℤ := if 0 ≤ x then ⌊x⌋ else ⌈x⌉

/-- `x.quantize(10^-s, rounding=ROUND_DOWN)`. -/
def quantizeDown (s : ℕ) (x : ℚ) : Except Signal ℚ :=
  if c.fits (truncate (x * 10 ^ s)) then .ok (truncate (x * 10 ^ s) / 10 ^ s)
  else .error .invalidOperation

/-! ## Accuracy -/

/-- The results of a context are within a relative error and exact up to 28 digits. -/
structure Accurate (ε : ℚ) : Prop where
  nonneg : 0 ≤ ε
  small : ε ≤ 1 / 10 ^ 24
  total : ∀ {x : ℚ}, |x| < 10 ^ 100 → ∃ y, c.finish x = .ok y
  error : ∀ {x y : ℚ}, c.finish x = .ok y → |y - x| ≤ ε * |x|
  grid : ∀ {x : ℚ} {e : ℤ}, OnGrid ((10 : ℚ) ^ e) x → |x| < 10 ^ (e + 28) → |x| < 10 ^ 100 →
    c.Exact x
  result : ∀ {x y : ℚ}, c.finish x = .ok y → c.Exact y
  fits : ∀ {n : ℤ}, n.natAbs < 10 ^ 28 → c.fits n = true

variable {c}

theorem accurate_of_prec_none (h : c.prec = none) : c.Accurate 0 where
  nonneg := le_rfl
  small := by positivity
  total {x} _ := ⟨x, by simp only [finish, h]⟩
  error {x y} hf := by
    simp only [finish, h, Except.ok.injEq] at hf
    simp [hf]
  grid _ _ _ := by simp only [Exact, finish, h]
  result _ := by simp only [Exact, finish, h]
  fits _ := by simp only [Context.fits, h]

theorem log_le_emax {n : ℕ} {x : ℚ} (hn : n ≤ 1000000) (h : |x| < 10 ^ n) :
    Int.log 10 |x| ≤ emax := by
  rcases eq_or_ne x 0 with rfl | hx
  · simp [emax]
  · have hl : Int.log 10 |x| < n :=
      (Int.lt_zpow_iff_log_lt (by norm_num) (abs_pos.mpr hx)).mp (by exact_mod_cast h)
    unfold emax
    omega

theorem finish_of_prec {p : ℕ} {x : ℚ} (h : c.prec = some p)
    (hb : |Nearest.halfEven.toDigits p x| < 10 ^ 101) :
    c.finish x = .ok (Nearest.halfEven.toDigits p x) := by
  simp only [finish, h]
  rw [if_neg (not_lt.mpr (log_le_emax (by norm_num) hb))]

/-- A result overflows far beyond any float only. -/
theorem exists_finish_of_prec {n : ℕ} {x : ℚ} (h : c.prec = some 28) (hn : n < 1000000)
    (hx : |x| ≤ 10 ^ n) : ∃ y, c.finish x = .ok y := by
  refine ⟨Nearest.halfEven.toDigits 28 x, ?_⟩
  have he := (abs_sub_abs_le_abs_sub _ x).trans (Nearest.halfEven.toDigits_error 28 x)
  have hpow : (0 : ℚ) < 10 ^ n := by positivity
  have hb : |Nearest.halfEven.toDigits 28 x| < 10 ^ (n + 1) := by
    rw [pow_succ]
    linarith
  simp only [finish, h]
  rw [if_neg (not_lt.mpr (log_le_emax hn hb))]

theorem accurate_of_prec (h : c.prec = some 28) : c.Accurate (5 / 10 ^ 28) where
  nonneg := by positivity
  small := by norm_num
  total {x} hx := by
    refine ⟨_, finish_of_prec h ?_⟩
    have he := abs_le.mp (Nearest.halfEven.toDigits_error 28 x)
    have hs : 5 * |x| / 10 ^ 28 ≤ 10 ^ 100 := by
      have : (5 : ℚ) / 10 ^ 28 ≤ 1 := by norm_num
      calc 5 * |x| / 10 ^ 28 = 5 / 10 ^ 28 * |x| := by ring
        _ ≤ 1 * 10 ^ 100 := mul_le_mul this hx.le (abs_nonneg x) (by norm_num)
        _ = 10 ^ 100 := one_mul _
    obtain ⟨hx₁, hx₂⟩ := abs_lt.mp hx
    rw [abs_lt]
    constructor <;> linarith
  error {x y} hf := by
    simp only [finish, h] at hf
    split_ifs at hf
    rw [← Except.ok.inj hf]
    calc |Nearest.halfEven.toDigits 28 x - x| ≤ 5 * |x| / 10 ^ 28 := Nearest.toDigits_error _ 28 x
      _ = 5 / 10 ^ 28 * |x| := by ring
  grid {x e} hg hb hx := by
    have ht : Nearest.halfEven.toDigits 28 x = x :=
      Nearest.halfEven.toDigits_of_onGrid hg (by exact_mod_cast hb)
    unfold Exact
    rw [finish_of_prec h (by rw [ht]; linarith), ht]
  result {x y} hf := by
    simp only [finish, h] at hf
    split_ifs at hf with hlog
    rw [← Except.ok.inj hf]
    have hi : Nearest.halfEven.toDigits 28 (Nearest.halfEven.toDigits 28 x) =
        Nearest.halfEven.toDigits 28 x := Nearest.toDigits_toDigits _ (by norm_num) x
    simp only [Exact, finish, h, hi, if_neg hlog]
  fits hn := by simp only [Context.fits, h, hn, decide_true]

theorem accurate_default : default.Accurate (5 / 10 ^ 28) := accurate_of_prec rfl

theorem accurate_ratDiv : ratDiv.Accurate (5 / 10 ^ 28) := accurate_of_prec rfl

theorem accurate_exact : exact.Accurate 0 := accurate_of_prec_none rfl

namespace Accurate

variable {ε : ℚ} {x y : ℚ}

theorem nonneg_of_finish (h : c.Accurate ε) (hf : c.finish x = .ok y) (hx : 0 ≤ x) : 0 ≤ y := by
  have he := abs_le.mp (h.error hf)
  have hs : ε * |x| ≤ 1 * |x| := mul_le_mul_of_nonneg_right (by linarith [h.small]) (abs_nonneg x)
  rw [abs_of_nonneg hx] at he hs
  linarith

/-- The relative error, below any bound this project asks for. -/
theorem error_le (h : c.Accurate ε) (hf : c.finish x = .ok y) : |y - x| ≤ |x| / 10 ^ 24 := by
  calc |y - x| ≤ ε * |x| := h.error hf
    _ ≤ 1 / 10 ^ 24 * |x| := mul_le_mul_of_nonneg_right h.small (abs_nonneg x)
    _ = |x| / 10 ^ 24 := by ring

theorem finish_le (h : c.Accurate ε) (hf : c.finish x = .ok y) (hx : 0 ≤ x) :
    y ≤ x * (1 + 1 / 10 ^ 24) := by
  have he := abs_le.mp (h.error_le hf)
  rw [abs_of_nonneg hx] at he
  linarith

theorem le_finish (h : c.Accurate ε) (hf : c.finish x = .ok y) (hx : 0 ≤ x) :
    x * (1 - 1 / 10 ^ 24) ≤ y := by
  have he := abs_le.mp (h.error_le hf)
  rw [abs_of_nonneg hx] at he
  linarith

theorem finish_nonpos (h : c.Accurate ε) (hf : c.finish x = .ok y) (hx : x ≤ 0) : y ≤ 0 := by
  have he := abs_le.mp (h.error_le hf)
  rw [abs_of_nonpos hx] at he
  linarith

theorem quot_le (h : c.Accurate ε) {z : ℚ} (hf : c.quot x y = .ok z) (hx : 0 ≤ x / y) :
    z ≤ x / y * (1 + 1 / 10 ^ 24) := by
  unfold quot at hf
  split_ifs at hf
  · obtain rfl := Except.ok.inj hf
    linarith
  · exact h.finish_le hf hx

theorem quot_nonneg (h : c.Accurate ε) {z : ℚ} (hf : c.quot x y = .ok z) (hx : 0 ≤ x / y) :
    0 ≤ z := by
  unfold quot at hf
  split_ifs at hf
  · obtain rfl := Except.ok.inj hf
    exact hx
  · exact h.nonneg_of_finish hf hx

theorem quot_nonpos (h : c.Accurate ε) {z : ℚ} (hf : c.quot x y = .ok z) (hx : x / y ≤ 0) :
    z ≤ 0 := by
  unfold quot at hf
  split_ifs at hf
  · obtain rfl := Except.ok.inj hf
    exact hx
  · exact h.finish_nonpos hf hx

theorem quot_error (h : c.Accurate ε) {z : ℚ} (hf : c.quot x y = .ok z) :
    |z - x / y| ≤ ε * |x / y| := by
  unfold quot at hf
  split_ifs at hf
  · obtain rfl := Except.ok.inj hf
    rw [sub_self, abs_zero]
    exact mul_nonneg h.nonneg (abs_nonneg _)
  · exact h.error hf

/-- A number of `s` decimals and at most 28 digits is exact. -/
theorem exact_of_decimals (h : c.Accurate ε) {s : ℕ} (hs : s ≤ 28)
    (hg : OnGrid ((10 : ℚ) ^ s)⁻¹ x) (hb : |x| < 10 ^ (28 - s)) : c.Exact x := by
  have he : ((10 : ℚ) ^ s)⁻¹ = 10 ^ (-(s : ℤ)) := by rw [zpow_neg, zpow_natCast]
  apply h.grid (he ▸ hg)
  · calc |x| < (10 : ℚ) ^ (28 - s) := hb
      _ = 10 ^ (-(s : ℤ) + 28) := by
        rw [← zpow_natCast]
        congr 1
        omega
  · exact hb.trans_le (pow_le_pow_right₀ (by norm_num) (by omega))

theorem quantizeFin_ok (h : c.Accurate ε) {r : Nearest ℚ} {s : ℕ} (hs : s ≤ 28)
    (hb : |r.toGrid ((10 : ℚ) ^ s)⁻¹ x| < 10 ^ (28 - s)) :
    c.quantizeFin r s x = .ok (r.toGrid ((10 : ℚ) ^ s)⁻¹ x) := by
  unfold quantizeFin
  rw [if_pos]
  apply h.fits
  have hpow : (10 : ℚ) ^ (28 - s) * 10 ^ s = 10 ^ 28 := by
    rw [← pow_add, Nat.sub_add_cancel hs]
  unfold Nearest.toGrid at hb
  rw [abs_mul, abs_of_pos (by positivity : (0 : ℚ) < (10 ^ s)⁻¹),
    mul_inv_lt_iff₀ (by positivity), hpow, ← Int.cast_abs, Int.abs_eq_natAbs] at hb
  exact_mod_cast hb

end Accurate

theorem truncate_le {x : ℚ} (h : 0 < truncate x) : (truncate x : ℚ) ≤ x := by
  unfold truncate at h ⊢
  split_ifs at h ⊢ with hx
  · exact Int.floor_le x
  · exact absurd (Int.ceil_pos.mp h) (by linarith)

theorem quantizeFin_error {r : Nearest ℚ} {s : ℕ} {x y : ℚ} (h : c.quantizeFin r s x = .ok y) :
    |y - x| ≤ ((10 : ℚ) ^ s)⁻¹ / 2 := by
  unfold quantizeFin at h
  split_ifs at h
  obtain rfl := Except.ok.inj h
  exact r.toGrid_error (by positivity) x

theorem quantizeFin_nonneg {r : Nearest ℚ} {s : ℕ} {x y : ℚ} (h : c.quantizeFin r s x = .ok y)
    (hx : 0 ≤ x) : 0 ≤ y := by
  unfold quantizeFin at h
  split_ifs at h
  obtain rfl := Except.ok.inj h
  exact r.toGrid_nonneg (by positivity) hx

theorem quantizeDown_le {s : ℕ} {x y : ℚ} (h : c.quantizeDown s x = .ok y) (hx : 0 ≤ x) :
    y ≤ x := by
  unfold quantizeDown at h
  split_ifs at h
  obtain rfl := Except.ok.inj h
  have hs : (0 : ℚ) < 10 ^ s := by positivity
  rw [div_le_iff₀ hs, truncate, if_pos (mul_nonneg hx hs.le)]
  exact Int.floor_le _

theorem lt_quantizeDown_add {s : ℕ} {x y : ℚ} (h : c.quantizeDown s x = .ok y) (hx : 0 ≤ x) :
    x < y + 1 / 10 ^ s := by
  unfold quantizeDown at h
  split_ifs at h
  obtain rfl := Except.ok.inj h
  have hs : (0 : ℚ) < 10 ^ s := by positivity
  rw [← add_div, lt_div_iff₀ hs, truncate, if_pos (mul_nonneg hx hs.le)]
  exact Int.lt_floor_add_one _

end Context

end QuantTrader
