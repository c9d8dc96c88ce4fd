import Mathlib.Data.Rat.Lemmas
import Mathlib.Algebra.Order.Ring.Rat
import QuantTrader.Weights.Waterfill

/-! # The weights of the loads

Scores that pass the gate become targets, the targets are blended with the weights
of the day before, and the blend is clamped and renormalised by turns, for at most
fifty rounds. The weights always sum to one. They are within their bounds exactly
when two successive levels of the blended weights are near after fifty rounds.
-/

namespace QuantTrader.Weights

variable {κ : Type*}

/-- The tolerance of the convergence test. -/
def eps : ℚ := 1 / 10 ^ 9

def values (w : List (κ × ℚ)) : List ℚ := w.map Prod.snd

def mapValues (f : ℚ → ℚ) (w : List (κ × ℚ)) : List (κ × ℚ) := w.map fun (k, v) => (k, f v)

def clampNormalize (floor cap : ℚ) : ℕ → List (κ × ℚ) → List (κ × ℚ)
  | 0, out => out
  | iters + 1, w =>
    let out := mapValues (fun v => min cap (max floor v)) w
    let z := (values out).sum
    if z ≤ 0 then mapValues (fun _ => 1 / out.length) out
    else
      let out := mapValues (· / z) out
      if Within floor cap eps (values out) then out else clampNormalize floor cap iters out

/-- The guards of the policy. -/
structure Guards where
  floorMult : ℚ
  capMult : ℚ
  dsrGate : ℚ
  ewmaAlpha : ℚ

section

variable [DecidableEq κ] (g : Guards) (scores gates prev : List (κ × ℚ))

def equal : ℚ := 1 / scores.length

/-- The scores that count: those that pass the gate, and nothing below zero. -/
def raw : List (κ × ℚ) := scores.map fun (k, s) =>
  (k, if g.dsrGate ≤ (gates.lookup k).getD 0 then max 0 s else 0)

/-- The targets, smoothed with the weights of before. -/
def blended : List (κ × ℚ) := (raw g scores gates).map fun (k, r) =>
  (k, g.ewmaAlpha * (r / (values (raw g scores gates)).sum) +
    (1 - g.ewmaAlpha) * (prev.lookup k).getD (equal scores))

def computeWeights : List (κ × ℚ) :=
  if scores = [] then []
  else if (values (raw g scores gates)).sum ≤ 0 then mapValues (fun _ => equal scores) scores
  else clampNormalize (g.floorMult * equal scores) (g.capMult * equal scores) 50
    (blended g scores gates prev)

end

theorem eps_nonneg : 0 ≤ eps := by norm_num [eps]

section Rounds

variable {floor cap : ℚ} {w : List (κ × ℚ)} {n : ℕ}

@[simp] theorem values_mapValues (f : ℚ → ℚ) : values (mapValues f w) = (values w).map f := by
  simp [values, mapValues]

@[simp] theorem mapValues_length (f : ℚ → ℚ) : (mapValues f w).length = w.length := by
  simp [mapValues]

@[simp] theorem values_length : (values w).length = w.length := by simp [values]

theorem clip_one : clip floor cap 1 = fun v => min cap (max floor v) := by
  funext v
  rw [clip, mul_one, mul_one]

def roundDict (floor cap : ℚ) (w : List (κ × ℚ)) : List (κ × ℚ) :=
  let out := mapValues (fun v => min cap (max floor v)) w
  mapValues (· / (values out).sum) out

@[simp] theorem values_roundDict : values (roundDict floor cap w) = round floor cap (values w) := by
  rw [roundDict, values_mapValues, values_mapValues, round, clamped, clip_one]

theorem clampNormalize_succ (hz : 0 < (clamped floor cap (values w)).sum) :
    clampNormalize floor cap (n + 1) w =
      if Within floor cap eps (round floor cap (values w)) then roundDict floor cap w
      else clampNormalize floor cap n (roundDict floor cap w) := by
  rw [clamped, clip_one, ← values_mapValues] at hz
  rw [clampNormalize, if_neg hz.not_ge, ← values_roundDict]
  rfl

theorem within_iterate (h0 : 0 ≤ floor) (h : floor ≤ cap) (hcap : 0 < cap) {xs : List ℚ}
    (hs : xs.sum = 1) (hw : Within floor cap eps xs) :
    Within floor cap eps ((round floor cap)^[n] xs) := by
  induction n generalizing xs with
  | zero => exact hw
  | succ n ih =>
    have hz : 0 < (clamped floor cap xs).sum := clamped_sum_pos h0 hcap (hs ▸ one_pos)
    exact ih (sum_round hz.ne') (within_round h0 h eps_nonneg hw hs hz)

/-- Fewer rounds than allowed are run only once the weights are within their bounds, where all
further rounds would leave them. -/
theorem clampNormalize_spec (h0 : 0 ≤ floor) (h : floor ≤ cap) (hcap : 0 < cap)
    (hs : (values w).sum = 1) : (values (clampNormalize floor cap n w)).sum = 1 ∧
      (Within floor cap eps (values (clampNormalize floor cap n w)) ↔
        Within floor cap eps ((round floor cap)^[n] (values w))) := by
  induction n generalizing w with
  | zero => exact ⟨hs, Iff.rfl⟩
  | succ n ih =>
    have hz : 0 < (clamped floor cap (values w)).sum := clamped_sum_pos h0 hcap (hs ▸ one_pos)
    have hs' : (values (roundDict floor cap w)).sum = 1 := by
      rw [values_roundDict, sum_round hz.ne']
    rw [clampNormalize_succ hz, Function.iterate_succ_apply]
    split_ifs with hw
    · refine ⟨hs', iff_of_true ?_ (within_iterate h0 h hcap ?_ hw)⟩
      · rwa [values_roundDict]
      · rwa [← values_roundDict]
    · rw [← values_roundDict]
      exact ih hs'

/-- The whole loop: the weights sum to one, and two levels tell whether they are within their
bounds. -/
theorem clampNormalize_iff (hw : w ≠ []) (h0 : 0 ≤ floor) (hfloor : floor ≤ 1 / w.length)
    (hcap : 1 / w.length ≤ cap) : (values (clampNormalize floor cap (n + 2) w)).sum = 1 ∧
      (Within floor cap eps (values (clampNormalize floor cap (n + 2) w)) ↔
        Near floor cap eps (level floor cap (clamped floor cap (values w)) (n + 1))
          (level floor cap (clamped floor cap (values w)) (n + 2))) := by
  have h : floor ≤ cap := hfloor.trans hcap
  have hlen : (0 : ℚ) < w.length := by exact_mod_cast List.length_pos_iff.mpr hw
  have hcs : ∀ c ∈ clamped floor cap (values w), floor ≤ c ∧ c ≤ cap := fun c => clamped_bounds h
  have hnonneg : 0 ≤ (clamped floor cap (values w)).sum :=
    List.sum_nonneg fun c hc => h0.trans (hcs c hc).1
  rcases hnonneg.eq_or_lt with hz | hz
  · -- nothing to divide: the weights are equal
    have hout : clampNormalize floor cap (n + 2) w =
        mapValues (fun _ => 1 / (w.length : ℚ)) (mapValues (fun v => min cap (max floor v)) w) := by
      rw [clamped, clip_one, ← values_mapValues] at hz
      rw [clampNormalize, if_pos hz.ge, mapValues_length]
    rw [hout, level_eq_zero h0 hcs hz.symm, level_eq_zero h0 hcs hz.symm]
    refine ⟨?_, iff_of_true ?_ (near_self eps_nonneg le_rfl)⟩
    · simp [Function.comp_def, hlen.ne']
    · intro x hx
      simp only [values_mapValues, List.mem_map] at hx
      obtain ⟨-, -, rfl⟩ := hx
      have := eps_nonneg
      constructor <;> linarith
  · have hs : (values (roundDict floor cap w)).sum = 1 := by
      rw [values_roundDict, sum_round hz.ne']
    have hcap0 : 0 < cap := (one_div_pos.mpr hlen).trans_le hcap
    have hnear : Within floor cap eps ((round floor cap)^[n + 1] (values (roundDict floor cap w))) ↔
        Near floor cap eps (level floor cap (clamped floor cap (values w)) (n + 1))
          (level floor cap (clamped floor cap (values w)) (n + 2)) := by
      rw [values_roundDict, ← Function.iterate_succ_apply, iterate_round h0 h hz]
      exact within_sharesAt_iff h0 h eps_nonneg hcs hz
    rw [clampNormalize_succ hz, ← hnear]
    split_ifs with hfirst
    · rw [← values_roundDict] at hfirst
      exact ⟨hs, iff_of_true hfirst (within_iterate h0 h hcap0 hs hfirst)⟩
    · exact clampNormalize_spec h0 h hcap0 hs

end Rounds

variable [DecidableEq κ]

/-- The weights sum to one, and each is within its bounds up to the tolerance. -/
def Kept (g : Guards) (n : ℕ) (w : List (κ × ℚ)) : Prop :=
  (values w).sum = 1 ∧ ∀ v ∈ values w, g.floorMult / n - eps ≤ v ∧ v ≤ g.capMult / n + eps

/-- The levels of the blended weights are near after fifty rounds. -/
def Settles (g : Guards) (scores gates prev : List (κ × ℚ)) : Prop :=
  let floor := g.floorMult * equal scores
  let cap := g.capMult * equal scores
  let cs := clamped floor cap (values (blended g scores gates prev))
  Near floor cap eps (level floor cap cs 49) (level floor cap cs 50)

instance (g : Guards) (n : ℕ) (w : List (κ × ℚ)) : Decidable (Kept g n w) :=
  inferInstanceAs (Decidable (_ ∧ _))

instance (g : Guards) (scores gates prev : List (κ × ℚ)) :
    Decidable (Settles g scores gates prev) :=
  inferInstanceAs (Decidable (Near _ _ _ _ _))

/-- Either no load has a positive score that passes the gate, or the levels of the blended weights
have to be near after fifty rounds. -/
theorem computeWeights_kept_iff {g : Guards} {scores gates prev : List (κ × ℚ)}
    (hne : scores ≠ []) (h0 : 0 ≤ g.floorMult) (h1 : g.floorMult ≤ 1) (hcap : 1 ≤ g.capMult) :
    Kept g scores.length (computeWeights g scores gates prev) ↔
      (values (raw g scores gates)).sum ≤ 0 ∨ Settles g scores gates prev := by
  have hlen : (0 : ℚ) < scores.length := by exact_mod_cast List.length_pos_iff.mpr hne
  have hfloor : g.floorMult * equal scores ≤ equal scores :=
    mul_le_of_le_one_left (one_div_pos.mpr hlen).le h1
  have hcap' : equal scores ≤ g.capMult * equal scores :=
    le_mul_of_one_le_left (one_div_pos.mpr hlen).le hcap
  have hmul : ∀ m : ℚ, m / scores.length = m * equal scores := by
    intro m
    rw [equal, mul_one_div]
  rw [computeWeights, if_neg hne]
  split_ifs with htot
  · refine iff_of_true ⟨?_, ?_⟩ (Or.inl htot)
    · simp [equal, hlen.ne']
    · intro v hv
      simp only [values_mapValues, List.mem_map] at hv
      obtain ⟨-, -, rfl⟩ := hv
      have := eps_nonneg
      rw [hmul, hmul]
      constructor <;> linarith
  · have hl : (blended g scores gates prev).length = scores.length := by simp [blended, raw]
    have hb : blended g scores gates prev ≠ [] := by
      rw [← List.length_pos_iff, hl]
      exact List.length_pos_iff.mpr hne
    have hequal : 1 / ((blended g scores gates prev).length : ℚ) = equal scores := by rw [hl, equal]
    have hfloor0 : 0 ≤ g.floorMult * equal scores := mul_nonneg h0 (one_div_pos.mpr hlen).le
    obtain ⟨hs, hiff⟩ := clampNormalize_iff (n := 48) hb hfloor0
      (hfloor.trans_eq hequal.symm) (hequal.trans_le hcap')
    rw [Kept, hmul, hmul, or_iff_right htot]
    exact (and_iff_right hs).trans hiff

theorem computeWeights_kept_iff_live :
    Kept ⟨1 / 2, 3 / 2, 9 / 10, 1⟩ 3 (computeWeights ⟨1 / 2, 3 / 2, 9 / 10, 1⟩
      [("a", 1000), ("b", 1), ("c", 0)] [("a", 99 / 100), ("b", 99 / 100), ("c", 99 / 100)] []) :=
  (computeWeights_kept_iff (List.cons_ne_nil _ _) (by norm_num) (by norm_num) (by norm_num)).mpr
    (by decide +kernel)

/-- With a cap of ninety-five hundredths, fifty rounds leave the winner of two loads above it. -/
theorem computeWeights_above_cap :
    ¬ Kept ⟨1 / 50, 19 / 10, 9 / 10, 1⟩ 2 (computeWeights ⟨1 / 50, 19 / 10, 9 / 10, 1⟩
      [("a", 1), ("b", 0)] [("a", 1), ("b", 1)] []) := by
  decide +kernel

end QuantTrader.Weights
