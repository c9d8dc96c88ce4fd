import Mathlib.Algebra.Order.Floor.Semiring
import Mathlib.Algebra.Order.Field.Basic
import Mathlib.Data.List.Chain
import Mathlib.Tactic.Linarith
import Mathlib.Tactic.FieldSimp
import Mathlib.Tactic.Ring

/-! # Points kept a distance apart

Points of which neighbours are at least a distance apart, in the order in which they
were added. A half-open window holds at most as many of them as distances fit into
its length, rounded up.
-/

namespace QuantTrader.RateLimit

variable {K : Type*} [Field K] [LinearOrder K] [IsStrictOrderedRing K]

/-- Each point is at least `d` after the one before it. -/
def Spaced (d : K) (ts : List K) : Prop := ts.IsChain fun t u => t + d ≤ u

instance (d : K) (ts : List K) : Decidable (Spaced d ts) :=
  inferInstanceAs (Decidable (ts.IsChain fun t u => t + d ≤ u))

/-- The points of the half-open window of length `T` from `a`. -/
def window (a T : K) (ts : List K) : List K := ts.filter fun t => a ≤ t ∧ t < a + T

variable {d a T t : K} {ts us : List K}

omit [IsStrictOrderedRing K] in
theorem Spaced.nil : Spaced d ([] : List K) := List.IsChain.nil

omit [IsStrictOrderedRing K] in
theorem Spaced.snoc (h : Spaced d ts) (ht : ∀ u ∈ ts.getLast?, u + d ≤ t) :
    Spaced d (ts ++ [t]) := by
  refine List.isChain_append.mpr ⟨h, .singleton t, ?_⟩
  rintro u hu v hv
  obtain rfl : t = v := by simpa using hv
  exact ht u hu

theorem Spaced.pairwise (hd : 0 ≤ d) (h : Spaced d ts) :
    ts.Pairwise fun t u => t + d ≤ u := by
  have htrans : ∀ {t u v : K}, t + d ≤ u → u + d ≤ v → t + d ≤ v := by
    intro t u v htu huv
    linarith
  have : IsTrans K fun t u => t + d ≤ u := ⟨fun _ _ _ => htrans⟩
  exact List.isChain_iff_pairwise.mp h

theorem add_mul_lt_of_pairwise {x : K}
    (h : (x :: us).Pairwise fun t u => t + d ≤ u) {b : K} (hb : ∀ u ∈ x :: us, u < b) :
    x + us.length * d < b := by
  induction us generalizing x with
  | nil => simpa using hb x List.mem_cons_self
  | cons y us ih =>
    have hxy : x + d ≤ y := List.rel_of_pairwise_cons h List.mem_cons_self
    have hlast := ih h.of_cons fun u hu => hb u (List.mem_cons_of_mem _ hu)
    push_cast [List.length_cons]
    linarith

/-- A half-open window of length `T` holds at most `r * T` points `1 / r` apart, rounded up. -/
theorem Spaced.length_window_le [FloorSemiring K] {r : K} (hr : 0 < r)
    (h : Spaced (1 / r) ts) : (window a T ts).length ≤ ⌈r * T⌉₊ := by
  have hd : 0 ≤ 1 / r := by positivity
  have hpair : (window a T ts).Pairwise fun t u => t + 1 / r ≤ u :=
    (h.pairwise hd).sublist List.filter_sublist
  have hmem : ∀ t ∈ window a T ts, a ≤ t ∧ t < a + T := by
    rintro t ht
    simpa using (List.mem_filter.mp ht).2
  cases hw : window a T ts with
  | nil => simp
  | cons x us =>
    rw [hw] at hpair hmem
    have hlast := add_mul_lt_of_pairwise hpair fun u hu => (hmem u hu).2
    have hfirst := (hmem x List.mem_cons_self).1
    have hlt : us.length * (1 / r) < T := by linarith
    have hcast : (us.length : K) < r * T := by
      calc (us.length : K) = r * (us.length * (1 / r)) := by field_simp
        _ < r * T := (mul_lt_mul_iff_right₀ hr).mpr hlt
    have := Nat.lt_ceil.mpr hcast
    simp only [List.length_cons]
    omega

end QuantTrader.RateLimit
