import Mathlib.Algebra.Order.Field.Basic
import Mathlib.Data.List.Induction
import Mathlib.Order.Lattice
import Mathlib.Tactic.Linarith

/-! # The largest drawdown of a series

A scan keeps the peak and the largest relative fall from it. The fall is that of a
pair of values of the series, the earlier one first, and no such pair that ends at
a value that is not negative falls further. Reading the values again at increasing
positions makes no larger fall out of values that are not negative.
-/

namespace QuantTrader.Series

variable {K : Type*} [Field K] [LinearOrder K]

/-- The peak after a value. -/
def rise : Option K → K → K
  | none, v => v
  | some peak, v => max peak v

/-- The largest fall after a value below a peak; a peak that is not positive counts for nothing. -/
def fall (peak mdd v : K) : K := if 0 < peak then max mdd ((peak - v) / peak) else mdd

/-- A step of the scan. -/
def scan (acc : Option K × K) (v : K) : Option K × K :=
  (some (rise acc.1 v), fall (rise acc.1 v) acc.2 v)

/-- The peak and the largest fall of a series. -/
def scanned (vs : List K) : Option K × K := vs.foldl scan (none, 0)

def mdd (vs : List K) : K := (scanned vs).2

/-- `b` stands in the series not before `a`. -/
def Follows (vs : List K) (a b : K) : Prop := ∃ i j : ℕ, i ≤ j ∧ vs[i]? = some a ∧ vs[j]? = some b

variable {vs ws : List K} {v a b : K}

@[simp] theorem scanned_nil : scanned ([] : List K) = (none, 0) := rfl

@[simp] theorem scanned_snoc : scanned (vs ++ [v]) = scan (scanned vs) v := by
  simp [scanned]

omit [Field K] [LinearOrder K] in
theorem follows_snoc : Follows (vs ++ [v]) a b ↔ Follows vs a b ∨ b = v ∧ a ∈ vs ++ [v] := by
  constructor
  · rintro ⟨i, j, hij, ha, hb⟩
    rcases Nat.lt_or_ge j vs.length with hj | hj
    · rw [List.getElem?_append_left hj] at hb
      rw [List.getElem?_append_left (hij.trans_lt hj)] at ha
      exact Or.inl ⟨i, j, hij, ha, hb⟩
    · refine Or.inr ⟨?_, List.mem_of_getElem? ha⟩
      rw [List.getElem?_append_right hj, List.getElem?_singleton] at hb
      split_ifs at hb
      exact (Option.some.inj hb).symm
  · rintro (⟨i, j, hij, ha, hb⟩ | ⟨rfl, ha⟩)
    · have hj := (List.getElem?_eq_some_iff.mp hb).1
      refine ⟨i, j, hij, ?_, ?_⟩
      · rwa [List.getElem?_append_left (hij.trans_lt hj)]
      · rwa [List.getElem?_append_left hj]
    · obtain ⟨i, hi⟩ := List.mem_iff_getElem?.mp ha
      have hlt := (List.getElem?_eq_some_iff.mp hi).1
      rw [List.length_append, List.length_singleton] at hlt
      exact ⟨i, vs.length, Nat.lt_succ_iff.mp hlt, hi, by simp⟩

omit [Field K] [LinearOrder K] in
/-- A series that reads another one at increasing positions. -/
theorem Follows.of_read {p : ℕ → ℕ} (hp : Monotone p)
    (h : ∀ k w, ws[k]? = some w → vs[p k]? = some w) (hf : Follows ws a b) : Follows vs a b := by
  obtain ⟨i, j, hij, ha, hb⟩ := hf
  exact ⟨p i, p j, hp hij, h i a ha, h j b hb⟩

theorem peak_spec : (∀ p, (scanned vs).1 = some p → p ∈ vs) ∧
    ∀ v ∈ vs, ∃ p, (scanned vs).1 = some p ∧ v ≤ p := by
  induction vs using List.reverseRecOn with
  | nil => exact ⟨nofun, nofun⟩
  | append_singleton vs x ih =>
    rw [scanned_snoc]
    cases hpeak : (scanned vs).1 with
    | none =>
      have hnil : vs = [] := by
        apply List.eq_nil_iff_forall_not_mem.mpr
        intro v hv
        obtain ⟨p, hp, -⟩ := ih.2 v hv
        rw [hpeak] at hp
        cases hp
      rw [hnil]
      simp [scan, rise]
    | some p =>
      constructor
      · rintro _ hq
        obtain rfl : max p x = _ := by simpa [scan, rise, hpeak] using hq
        rcases max_choice p x with h | h
        · rw [h]
          exact List.mem_append_left _ (ih.1 p hpeak)
        · rw [h]
          simp
      · intro v hv
        refine ⟨max p x, by simp [scan, rise, hpeak], ?_⟩
        rcases List.mem_append.mp hv with hv | hv
        · obtain ⟨q, hq, hle⟩ := ih.2 v hv
          obtain rfl : p = q := Option.some.inj (hpeak.symm.trans hq)
          exact hle.trans (le_max_left p x)
        · rw [List.mem_singleton.mp hv]
          exact le_max_right p x

theorem rise_spec : rise (scanned vs).1 v ∈ vs ++ [v] ∧
    ∀ a ∈ vs ++ [v], a ≤ rise (scanned vs).1 v := by
  have hsnoc : (scanned (vs ++ [v])).1 = some (rise (scanned vs).1 v) := by rw [scanned_snoc]; rfl
  refine ⟨peak_spec.1 _ hsnoc, ?_⟩
  intro a ha
  obtain ⟨p, hp, hle⟩ := peak_spec.2 a ha
  rwa [Option.some.inj (hsnoc.symm.trans hp)]

theorem mdd_snoc : mdd (vs ++ [v]) = fall (rise (scanned vs).1 v) (mdd vs) v := by
  rw [mdd, scanned_snoc]
  rfl

theorem le_fall (peak m v : K) : m ≤ fall peak m v := by
  unfold fall
  split_ifs
  · exact le_max_left _ _
  · exact le_rfl

theorem mdd_nonneg (vs : List K) : 0 ≤ mdd vs := by
  induction vs using List.reverseRecOn with
  | nil => exact le_rfl
  | append_singleton vs v ih =>
    rw [mdd_snoc]
    exact ih.trans (le_fall _ _ _)

/-- The largest fall is the one between two values. -/
theorem mdd_attained (vs : List K) :
    mdd vs = 0 ∨ ∃ a b, Follows vs a b ∧ 0 < a ∧ mdd vs = (a - b) / a := by
  induction vs using List.reverseRecOn with
  | nil => exact Or.inl rfl
  | append_singleton vs v ih =>
    have hold : mdd vs = 0 ∨ ∃ a b, Follows (vs ++ [v]) a b ∧ 0 < a ∧ mdd vs = (a - b) / a := by
      rcases ih with h | ⟨a, b, hf, ha, h⟩
      · exact Or.inl h
      · exact Or.inr ⟨a, b, follows_snoc.mpr (Or.inl hf), ha, h⟩
    rw [mdd_snoc, fall]
    split_ifs with hpos
    · rcases max_choice (mdd vs) ((rise (scanned vs).1 v - v) / rise (scanned vs).1 v) with h | h
      · rwa [h]
      · rw [h]
        exact Or.inr ⟨_, v, follows_snoc.mpr (Or.inr ⟨rfl, rise_spec.1⟩), hpos, rfl⟩
    · exact hold

variable [IsStrictOrderedRing K]

/-- From a higher peak the fall to a value that is not negative is no smaller. -/
theorem div_fall_le {p : K} (ha : 0 < a) (hp : a ≤ p) (hb : 0 ≤ b) : (a - b) / a ≤ (p - b) / p := by
  have hp₀ : 0 < p := ha.trans_le hp
  rw [sub_div, sub_div, div_self ha.ne', div_self hp₀.ne']
  have : b / p ≤ b / a := div_le_div_of_nonneg_left hb ha hp
  linarith

theorem div_le_mdd (hf : Follows vs a b) (ha : 0 < a) (hb : 0 ≤ b) : (a - b) / a ≤ mdd vs := by
  induction vs using List.reverseRecOn with
  | nil =>
    obtain ⟨i, j, -, hi, -⟩ := hf
    simp at hi
  | append_singleton vs v ih =>
    rw [mdd_snoc]
    rcases follows_snoc.mp hf with hf | ⟨rfl, hmem⟩
    · exact (ih hf).trans (le_fall _ _ _)
    · have hle := rise_spec.2 a hmem
      rw [fall, if_pos (ha.trans_le hle)]
      exact (div_fall_le ha hle hb).trans (le_max_right _ _)

/-- Values read at increasing positions fall no further, if none of them is negative. -/
theorem mdd_le_of_read {p : ℕ → ℕ} (hp : Monotone p)
    (h : ∀ k w, ws[k]? = some w → vs[p k]? = some w) (hnonneg : ∀ w ∈ ws, 0 ≤ w) :
    mdd ws ≤ mdd vs := by
  rcases mdd_attained ws with hz | ⟨a, b, hf, ha, hab⟩
  · rw [hz]
    exact mdd_nonneg vs
  · obtain ⟨-, j, -, -, hj⟩ := id hf
    rw [hab]
    exact div_le_mdd (hf.of_read hp h) ha (hnonneg b (List.mem_of_getElem? hj))

end QuantTrader.Series
