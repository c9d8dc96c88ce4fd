import Mathlib.Algebra.Order.Round
import Mathlib.Data.Int.Log
import Mathlib.Data.Rat.Floor
import Mathlib.Tactic.FieldSimp
import Mathlib.Tactic.Linarith
import Mathlib.Tactic.Positivity
import Mathlib.Tactic.Ring

/-! # Rounding to nearest

A rounding to the nearest integer is known up to its choice at midpoints. It
extends to every grid of multiples of a positive step and to a number of
significant digits. The error bounds and the order laws hold for every choice.
-/

namespace QuantTrader

variable {K : Type*} [Field K]

/-- The multiples of a step. -/
def OnGrid (u x : K) : Prop := ∃ n : ℤ, x = n * u

namespace OnGrid

variable {u x y : K}

theorem zero (u : K) : OnGrid u 0 := ⟨0, by simp⟩

theorem add (hx : OnGrid u x) (hy : OnGrid u y) : OnGrid u (x + y) := by
  obtain ⟨m, rfl⟩ := hx
  obtain ⟨n, rfl⟩ := hy
  exact ⟨m + n, by push_cast; ring⟩

theorem neg (hx : OnGrid u x) : OnGrid u (-x) := by
  obtain ⟨m, rfl⟩ := hx
  exact ⟨-m, by push_cast; ring⟩

theorem sub (hx : OnGrid u x) (hy : OnGrid u y) : OnGrid u (x - y) := by
  rw [sub_eq_add_neg]; exact hx.add hy.neg

theorem trans {v : K} (hx : OnGrid u x) (hu : OnGrid v u) : OnGrid v x := by
  obtain ⟨m, rfl⟩ := hx
  obtain ⟨n, rfl⟩ := hu
  exact ⟨m * n, by push_cast; ring⟩

theorem eq_of_abs_sub_lt [LinearOrder K] [IsStrictOrderedRing K] (hu : 0 < u) (hx : OnGrid u x) (hy : OnGrid u y)
    (h : |x - y| < u) : x = y := by
  obtain ⟨m, rfl⟩ := hx
  obtain ⟨n, rfl⟩ := hy
  have h' : |((m - n : ℤ) : K)| * u < 1 * u := by
    rw [one_mul, ← abs_of_pos hu, ← abs_mul, abs_of_pos hu]
    push_cast; rwa [sub_mul]
  have hmn : |m - n| < 1 := by
    have := lt_of_mul_lt_mul_right h' hu.le
    exact_mod_cast this
  rw [Int.abs_lt_one_iff, sub_eq_zero] at hmn
  rw [hmn]

theorem abs [LinearOrder K] [IsStrictOrderedRing K] (hx : OnGrid u x) : OnGrid u |x| := by
  rcases abs_choice x with h | h
  · rwa [h]
  · rw [h]; exact hx.neg

theorem le_of_lt_add [LinearOrder K] [IsStrictOrderedRing K] (hu : 0 < u) (hx : OnGrid u x)
    (hy : OnGrid u y) (h : x < y + u) : x ≤ y := by
  obtain ⟨m, rfl⟩ := hx
  obtain ⟨n, rfl⟩ := hy
  have h' : (m : K) * u < ((n + 1 : ℤ) : K) * u := by
    push_cast; linarith
  have hmn : m < n + 1 := by exact_mod_cast lt_of_mul_lt_mul_right h' hu.le
  have hle : (m : K) ≤ n := by exact_mod_cast Int.lt_add_one_iff.mp hmn
  exact mul_le_mul_of_nonneg_right hle hu.le

end OnGrid

variable [LinearOrder K] [IsStrictOrderedRing K]

/-- A rounding to the nearest integer, with any choice at the midpoints. -/
structure Nearest (K : Type*) [Field K] [LinearOrder K] [IsStrictOrderedRing K] where
  toInt : K → ℤ
  error : ∀ x, |(toInt x : K) - x| ≤ 1 / 2

namespace Nearest

/-- Round to nearest, midpoints to the even neighbour. -/
def halfEven [FloorRing K] : Nearest K where
  toInt x :=
    if x - ⌊x⌋ < 1 / 2 then ⌊x⌋
    else if 1 / 2 < x - ⌊x⌋ then ⌊x⌋ + 1
    else ⌊x⌋ + ⌊x⌋ % 2
  error x := by
    have hlo := Int.floor_le x
    have hhi := Int.lt_floor_add_one x
    have hm : ⌊x⌋ % 2 = 0 ∨ ⌊x⌋ % 2 = 1 := by omega
    split_ifs with h₁ h₂
    · rw [abs_le]; constructor <;> linarith
    · rw [abs_le]; push_cast; constructor <;> linarith
    · rcases hm with hm | hm <;> rw [hm, abs_le] <;> push_cast <;> constructor <;> linarith

/-- Round to nearest, midpoints away from zero. -/
def halfUp [FloorRing K] : Nearest K where
  toInt x := if 0 ≤ x then ⌊x + 1 / 2⌋ else -⌊-x + 1 / 2⌋
  error x := by
    split_ifs
    · have hlo := Int.floor_le (x + 1 / 2)
      have hhi := Int.lt_floor_add_one (x + 1 / 2)
      rw [abs_le]; constructor <;> linarith
    · have hlo := Int.floor_le (-x + 1 / 2)
      have hhi := Int.lt_floor_add_one (-x + 1 / 2)
      rw [abs_le]; push_cast; constructor <;> linarith

variable (r : Nearest K)

@[simp] theorem toInt_intCast (n : ℤ) : r.toInt (n : K) = n := by
  have h := r.error (n : K)
  have hn : |r.toInt (n : K) - n| < 1 := by
    have : |((r.toInt (n : K) - n : ℤ) : K)| < 1 := by
      push_cast; linarith
    exact_mod_cast this
  rwa [Int.abs_lt_one_iff, sub_eq_zero] at hn

theorem toInt_mono {x y : K} (h : x ≤ y) : r.toInt x ≤ r.toInt y := by
  rcases h.eq_or_lt with rfl | h
  · exact le_rfl
  · by_contra hn
    have hn' : r.toInt y + 1 ≤ r.toInt x := by omega
    have hc : (r.toInt y : K) + 1 ≤ r.toInt x := by exact_mod_cast hn'
    have hx := (abs_le.mp (r.error x)).2
    have hy := (abs_le.mp (r.error y)).1
    linarith

/-- Round to the nearest multiple of the step `u`. -/
def toGrid (u x : K) : K := r.toInt (x / u) * u

variable {u x y : K}

theorem onGrid_toGrid (u x : K) : OnGrid u (r.toGrid u x) := ⟨_, rfl⟩

theorem toGrid_error (hu : 0 < u) (x : K) : |r.toGrid u x - x| ≤ u / 2 := by
  have he := mul_le_mul_of_nonneg_right (r.error (x / u)) hu.le
  calc |r.toGrid u x - x| = |(r.toInt (x / u) : K) - x / u| * u := by
        rw [← abs_of_pos hu, ← abs_mul, abs_of_pos hu, sub_mul, div_mul_cancel₀ _ hu.ne', toGrid]
    _ ≤ u / 2 := by linarith

theorem toGrid_of_onGrid (hu : 0 < u) (hx : OnGrid u x) : r.toGrid u x = x := by
  obtain ⟨n, rfl⟩ := hx
  rw [toGrid, mul_div_cancel_right₀ _ hu.ne', toInt_intCast]

theorem toGrid_mono (hu : 0 < u) (h : x ≤ y) : r.toGrid u x ≤ r.toGrid u y := by
  have hi := r.toInt_mono (div_le_div_of_nonneg_right h hu.le)
  have hc : (r.toInt (x / u) : K) ≤ r.toInt (y / u) := by exact_mod_cast hi
  exact mul_le_mul_of_nonneg_right hc hu.le

/-- Rounding does not cross a multiple of the step from above. -/
theorem le_toGrid (hu : 0 < u) (hy : OnGrid u y) (h : y ≤ x) : y ≤ r.toGrid u x := by
  rw [← r.toGrid_of_onGrid hu hy]; exact r.toGrid_mono hu h

theorem toGrid_le (hu : 0 < u) (hy : OnGrid u y) (h : x ≤ y) : r.toGrid u x ≤ y := by
  rw [← r.toGrid_of_onGrid hu hy]; exact r.toGrid_mono hu h

theorem abs_toGrid_le (hu : 0 < u) (hy : OnGrid u y) (h : |x| ≤ y) : |r.toGrid u x| ≤ y := by
  obtain ⟨h₁, h₂⟩ := abs_le.mp h
  exact abs_le.mpr ⟨r.le_toGrid hu hy.neg h₁, r.toGrid_le hu hy h₂⟩

theorem toGrid_nonneg (hu : 0 < u) (h : 0 ≤ x) : 0 ≤ r.toGrid u x :=
  r.le_toGrid hu (.zero u) h

/-- A value within half a step of a grid point, and strictly so, rounds to it. -/
theorem toGrid_eq_of_abs_sub_lt (hu : 0 < u) (hy : OnGrid u y) (h : |x - y| < u / 2) :
    r.toGrid u x = y := by
  refine (r.onGrid_toGrid u x).eq_of_abs_sub_lt hu hy ?_
  have h₁ := r.toGrid_error hu x
  have h₂ := abs_sub_le (r.toGrid u x) x y
  linarith

section Digits

variable [FloorRing K]

/-- The unit of the last of `p` significant decimal digits of `x`. -/
def ulp (p : ℕ) (x : K) : K := (10 : K) ^ (Int.log 10 |x| + 1 - (p : ℤ))

theorem ulp_pos (p : ℕ) (x : K) : 0 < ulp p x := zpow_pos (by norm_num) _

theorem ulp_le {p : ℕ} (hx : x ≠ 0) : ulp p x ≤ 10 * |x| / 10 ^ p := by
  have h := Int.zpow_log_le_self (b := 10) (by norm_num) (abs_pos.mpr hx)
  have h10 : (10 : K) ≠ 0 := by norm_num
  rw [ulp, zpow_sub₀ h10, zpow_add₀ h10, zpow_one, zpow_natCast]
  push_cast at h
  exact div_le_div_of_nonneg_right (by linarith) (by positivity)

/-- Round to the nearest number of `p` significant decimal digits. -/
def toDigits (p : ℕ) (x : K) : K := if x = 0 then 0 else r.toGrid (ulp p x) x

@[simp] theorem toDigits_zero (p : ℕ) : r.toDigits p (0 : K) = 0 := by simp [toDigits]

theorem toDigits_error (p : ℕ) (x : K) : |r.toDigits p x - x| ≤ 5 * |x| / 10 ^ p := by
  unfold toDigits
  split_ifs with hx
  · simp [hx]
  · have h₁ := r.toGrid_error (ulp_pos p x) x
    have h₂ := ulp_le (p := p) hx
    have : 5 * |x| / 10 ^ p = (10 * |x| / 10 ^ p) / 2 := by ring
    linarith

theorem toDigits_nonneg {p : ℕ} (h : 0 ≤ x) : 0 ≤ r.toDigits p x := by
  unfold toDigits
  split_ifs
  · exact le_rfl
  · exact r.toGrid_nonneg (ulp_pos p x) h

/-- A multiple of a power of ten below `10 ^ (e + p)` is a multiple of the unit of its last digit. -/
theorem onGrid_ulp {p : ℕ} {e : ℤ} (hx : x ≠ 0) (hg : OnGrid ((10 : K) ^ e) y)
    (hb : |x| < (10 : K) ^ (e + p)) : OnGrid (ulp p x) y := by
  have hl : Int.log 10 |x| < e + p :=
    (Int.lt_zpow_iff_log_lt (by norm_num) (abs_pos.mpr hx)).mp (by exact_mod_cast hb)
  refine hg.trans ⟨10 ^ (e - (Int.log 10 |x| + 1 - p)).toNat, ?_⟩
  have h10 : (10 : K) ≠ 0 := by norm_num
  have hn : 0 ≤ e - (Int.log 10 |x| + 1 - (p : ℤ)) := by omega
  push_cast
  rw [ulp, ← zpow_natCast, ← zpow_add₀ h10]
  congr 1
  omega

/-- A multiple of a power of ten with at most `p` digits is not changed. -/
theorem toDigits_of_onGrid {p : ℕ} {e : ℤ} (hg : OnGrid ((10 : K) ^ e) x)
    (hb : |x| < (10 : K) ^ (e + p)) : r.toDigits p x = x := by
  unfold toDigits
  split_ifs with hx
  · exact hx.symm
  · exact r.toGrid_of_onGrid (ulp_pos p x) (onGrid_ulp hx hg hb)

/-- Rounding to `p` digits does not cross a coarser grid point from below. -/
theorem toDigits_le {p : ℕ} {e : ℤ} (hg : OnGrid ((10 : K) ^ e) y) (hb : |x| < (10 : K) ^ (e + p))
    (h : x ≤ y) : r.toDigits p x ≤ y := by
  unfold toDigits
  split_ifs with hx
  · rwa [← hx]
  · exact r.toGrid_le (ulp_pos p x) (onGrid_ulp hx hg hb) h

/-- A gain of less than half a unit in the last of `p` digits is rounded away. -/
theorem toDigits_le_of_lt {p : ℕ} {e : ℤ} (hg : OnGrid ((10 : K) ^ e) y)
    (hb : |x| < (10 : K) ^ (e + p)) (hy : (10 : K) ^ (e + p - 1) ≤ y)
    (h : x < y + (10 : K) ^ e / 2) : r.toDigits p x ≤ y := by
  rcases le_or_gt x y with hx | hx
  · exact r.toDigits_le hg hb hx
  have hy0 : 0 < y := lt_of_lt_of_le (zpow_pos (by norm_num) _) hy
  have hx0 : x ≠ 0 := (hy0.trans hx).ne'
  have hlog : e + p - 1 ≤ Int.log 10 |x| := by
    refine (Int.zpow_le_iff_le_log (by norm_num) (abs_pos.mpr hx0)).mp ?_
    push_cast
    rw [abs_of_pos (hy0.trans hx)]
    exact hy.trans hx.le
  have hulp : (10 : K) ^ e ≤ ulp p x := zpow_le_zpow_right₀ (by norm_num) (by omega)
  rw [toDigits, if_neg hx0]
  refine (r.toGrid_eq_of_abs_sub_lt (ulp_pos p x) (onGrid_ulp hx0 hg hb) ?_).le
  rw [abs_of_pos (sub_pos.mpr hx)]
  linarith

theorem toDigits_toDigits {p : ℕ} (hp : 0 < p) (x : K) :
    r.toDigits p (r.toDigits p x) = r.toDigits p x := by
  have h10 : (10 : K) ≠ 0 := by norm_num
  rcases eq_or_ne x 0 with rfl | hx
  · simp
  have hx' : r.toDigits p x = r.toGrid (ulp p x) x := if_neg hx
  obtain ⟨n, hn⟩ := r.onGrid_toGrid (ulp p x) x
  have hlt : |x| < (10 : K) ^ (Int.log 10 |x| + 1) := by
    exact_mod_cast Int.lt_zpow_succ_log_self (by norm_num) |x|
  have htop : OnGrid (ulp p x) ((10 : K) ^ (Int.log 10 |x| + 1)) := by
    refine ⟨10 ^ p, ?_⟩
    push_cast
    rw [ulp, ← zpow_natCast, ← zpow_add₀ h10]
    congr 1
    omega
  have hle := r.abs_toGrid_le (ulp_pos p x) htop hlt.le
  rw [hx']
  rcases hle.eq_or_lt with heq | hlt'
  · -- a carry to the next power of ten, which has a single digit
    have hg : OnGrid ((10 : K) ^ (Int.log 10 |x| + 1)) (r.toGrid (ulp p x) x) := by
      rcases abs_cases (r.toGrid (ulp p x) x) with ⟨ha, -⟩ | ⟨ha, -⟩
      · exact ⟨1, by rw [← heq, ha]; simp⟩
      · exact ⟨-1, by rw [← heq, ha]; simp⟩
    refine r.toDigits_of_onGrid hg ?_
    rw [heq]
    exact zpow_lt_zpow_right₀ (by norm_num) (by omega)
  · have hg : OnGrid ((10 : K) ^ (Int.log 10 |x| + 1 - (p : ℤ))) (r.toGrid (ulp p x) x) := ⟨n, hn⟩
    refine r.toDigits_of_onGrid hg ?_
    rwa [sub_add_cancel]

end Digits

end Nearest

end QuantTrader
