import Mathlib.Algebra.BigOperators.Ring.List
import Mathlib.Algebra.Order.BigOperators.Group.List
import Mathlib.Algebra.Order.Field.Basic
import Mathlib.Order.Iterate
import Mathlib.Tactic.FieldSimp
import Mathlib.Tactic.Linarith
import Mathlib.Tactic.Ring

/-! # Clamping and renormalising by turns

A round clamps every share to its bounds and divides by the sum. Rounds from given
shares differ from the shares only by a level: after round `k + 1` every share is the
clamped one, moved to the bounds at level `L k`, over `L (k + 1)`, where `L 0 = 1` and
the next level is the sum at the level before. So whether the shares of a round are
within the bounds, up to a tolerance, is told by two levels.
-/

namespace QuantTrader.Weights

variable {K : Type*} [Field K] [LinearOrder K]

/-- A share moved to the bounds at a level. -/
def clip (lo hi t c : K) : K := min (hi * t) (max (lo * t) c)

def clamped (lo hi : K) (xs : List K) : List K := xs.map (clip lo hi 1)

def round (lo hi : K) (xs : List K) : List K :=
  (clamped lo hi xs).map (· / (clamped lo hi xs).sum)

/-- The sum of the shares, moved to the bounds at a level. -/
def pool (lo hi : K) (cs : List K) (t : K) : K := (cs.map (clip lo hi t)).sum

def level (lo hi : K) (cs : List K) (k : ℕ) : K := (pool lo hi cs)^[k] 1

/-- Every share is within the bounds up to a tolerance. -/
def Within (lo hi eps : K) (xs : List K) : Prop := ∀ x ∈ xs, lo - eps ≤ x ∧ x ≤ hi + eps

/-- Two successive levels differ by little enough. -/
def Near (lo hi eps t u : K) : Prop := (lo - eps) * u ≤ lo * t ∧ hi * t ≤ (hi + eps) * u

instance (lo hi eps : K) (xs : List K) : Decidable (Within lo hi eps xs) :=
  inferInstanceAs (Decidable (∀ x ∈ xs, lo - eps ≤ x ∧ x ≤ hi + eps))

instance (lo hi eps t u : K) : Decidable (Near lo hi eps t u) :=
  inferInstanceAs (Decidable (_ ∧ _))

/-- The shares after round `k + 1`: the clamped ones at a level, over the next level. -/
def sharesAt (lo hi : K) (cs : List K) (k : ℕ) : List K :=
  cs.map fun c => clip lo hi (level lo hi cs k) c / level lo hi cs (k + 1)

section

variable {lo hi eps t u c : K} {cs xs : List K} {k : ℕ}

@[simp] theorem level_zero : level lo hi cs 0 = 1 := rfl

@[simp] theorem level_succ : level lo hi cs (k + 1) = pool lo hi cs (level lo hi cs k) :=
  Function.iterate_succ_apply' ..

omit [LinearOrder K] in
theorem sum_div (xs : List K) (f : K → K) (z : K) :
    (xs.map fun x => f x / z).sum = (xs.map f).sum / z := by
  simp only [div_eq_mul_inv, List.sum_map_mul_right]

theorem sum_round (hz : (clamped lo hi xs).sum ≠ 0) : (round lo hi xs).sum = 1 := by
  simpa [round, div_self hz] using sum_div (clamped lo hi xs) id (clamped lo hi xs).sum

end

variable [IsStrictOrderedRing K] {lo hi eps t u c : K} {cs xs : List K} {k : ℕ}

theorem clip_bounds (h : lo ≤ hi) (ht : 0 ≤ t) :
    lo * t ≤ clip lo hi t c ∧ clip lo hi t c ≤ hi * t :=
  ⟨le_min (mul_le_mul_of_nonneg_right h ht) (le_max_left _ _), min_le_left _ _⟩

theorem clip_div (ht : 0 < t) : clip lo hi 1 (c / t) = clip lo hi t c / t := by
  have hlo : lo * t / t = lo := mul_div_cancel_right₀ lo ht.ne'
  have hhi : hi * t / t = hi := mul_div_cancel_right₀ hi ht.ne'
  rw [clip, clip, ← min_div_div_right ht.le, ← max_div_div_right ht.le, hlo, hhi, mul_one, mul_one]

theorem clip_rising (h0 : 0 ≤ lo) (h : lo ≤ hi) (hc : c ≤ hi) (ht : 1 ≤ t) :
    clip lo hi t c = max (lo * t) c := by
  have h1 : lo * t ≤ hi * t := mul_le_mul_of_nonneg_right h (zero_le_one.trans ht)
  have h2 : c ≤ hi * t := hc.trans (le_mul_of_one_le_right (h0.trans h) ht)
  exact min_eq_right (max_le h1 h2)

theorem clip_falling (h0 : 0 ≤ lo) (hc : lo ≤ c) (ht : t ≤ 1) :
    clip lo hi t c = min (hi * t) c := by
  rw [clip, max_eq_right ((mul_le_of_le_one_right h0 ht).trans hc)]

theorem pool_mono (h0 : 0 ≤ lo) (h : lo ≤ hi) : Monotone (pool lo hi cs) := by
  intro t u htu
  apply List.sum_le_sum
  intro c _
  have h1 : hi * t ≤ hi * u := mul_le_mul_of_nonneg_left htu (h0.trans h)
  have h2 : lo * t ≤ lo * u := mul_le_mul_of_nonneg_left htu h0
  exact min_le_min h1 (max_le_max h2 le_rfl)

theorem clamped_bounds (h : lo ≤ hi) (hc : c ∈ clamped lo hi xs) : lo ≤ c ∧ c ≤ hi := by
  obtain ⟨x, -, rfl⟩ := List.mem_map.mp hc
  simpa using clip_bounds (c := x) h zero_le_one

/-- A positive share stays positive, so shares with a positive sum are not clamped away. -/
theorem clamped_sum_pos (h0 : 0 ≤ lo) (hhi : 0 < hi) (hs : 0 < xs.sum) :
    0 < (clamped lo hi xs).sum := by
  have hex : ∃ x ∈ xs, 0 < x := by
    apply List.exists_lt_of_sum_lt (fun _ : K => (0 : K)) id
    simpa using hs
  obtain ⟨x, hx, hx0⟩ := hex
  have hnonneg : ∀ y ∈ xs, 0 ≤ clip lo hi 1 y := by
    intro y _
    exact le_min (by linarith) (le_max_of_le_left (by linarith))
  have hpos : 0 < clip lo hi 1 x := lt_min (by linarith) (lt_max_of_lt_right hx0)
  have := List.sum_lt_sum (fun _ : K => (0 : K)) (clip lo hi 1) hnonneg ⟨x, hx, hpos⟩
  simpa [clamped] using this

omit [IsStrictOrderedRing K] in
theorem level_one (hcs : ∀ c ∈ cs, lo ≤ c ∧ c ≤ hi) : level lo hi cs 1 = cs.sum := by
  have hid : cs.map (clip lo hi 1) = cs := by
    refine (List.map_congr_left fun c hc => ?_).trans (List.map_id cs)
    simp [clip, (hcs c hc).1, (hcs c hc).2]
  rw [level_succ, level_zero, pool, hid]

theorem mul_pool_one_le (h0 : 0 ≤ lo) (hcs : ∀ c ∈ cs, lo ≤ c ∧ c ≤ hi)
    (ht0 : 0 ≤ t) (ht : t ≤ 1) : t * pool lo hi cs 1 ≤ pool lo hi cs t := by
  rw [pool, pool, ← List.sum_map_mul_left]
  apply List.sum_le_sum
  intro c hc
  have hc' := hcs c hc
  have h1 : t * c ≤ hi * t := by rw [mul_comm hi]; exact mul_le_mul_of_nonneg_left hc'.2 ht0
  have h2 : t * c ≤ c := mul_le_of_le_one_left (h0.trans hc'.1) ht
  rw [clip_falling h0 hc'.1 ht, clip_falling h0 hc'.1 le_rfl, mul_one, min_eq_right hc'.2]
  exact le_min h1 h2

omit [IsStrictOrderedRing K] in
theorem level_eq_zero (h0 : 0 ≤ lo) (hcs : ∀ c ∈ cs, lo ≤ c ∧ c ≤ hi) (hs : cs.sum = 0) :
    level lo hi cs (k + 1) = 0 := by
  induction k with
  | zero => rw [zero_add, level_one hcs, hs]
  | succ k ih =>
    have hclip : ∀ c ∈ cs, clip lo hi 0 c = 0 := by
      intro c hc
      simp [clip, h0.trans (hcs c hc).1]
    rw [level_succ, ih, pool, List.map_congr_left hclip]
    simp

section Sides

variable (h0 : 0 ≤ lo) (h : lo ≤ hi)

include h0 h

/-- The levels go one way: up from a sum of at least one, down from one of at most one. -/
theorem level_rising (hs : 1 ≤ level lo hi cs 1) : Monotone (level lo hi cs) :=
  (pool_mono h0 h).monotone_iterate_of_le_map hs

theorem level_falling (hs : level lo hi cs 1 ≤ 1) : Antitone (level lo hi cs) :=
  (pool_mono h0 h).antitone_iterate_of_map_le hs

variable (hcs : ∀ c ∈ cs, lo ≤ c ∧ c ≤ hi) (hpos : 0 < cs.sum)

include hcs hpos

theorem level_pos : 0 < level lo hi cs k := by
  have h1 : 0 < level lo hi cs 1 := by rwa [level_one hcs]
  rcases le_total 1 (level lo hi cs 1) with hs | hs
  · exact one_pos.trans_le (level_rising h0 h hs (Nat.zero_le k))
  · induction k with
    | zero => exact one_pos
    | succ k ih =>
      have hk : level lo hi cs k ≤ 1 := level_falling h0 h hs (Nat.zero_le k)
      rw [level_succ]
      exact (mul_pos ih h1).trans_le (mul_pool_one_le h0 hcs ih.le hk)

/-- Moving to the bounds of the next level forgets the level before. -/
theorem clip_clip (hc : c ∈ cs) :
    clip lo hi (level lo hi cs (k + 1)) (clip lo hi (level lo hi cs k) c) =
      clip lo hi (level lo hi cs (k + 1)) c := by
  obtain ⟨hlo, hhi⟩ := hcs c hc
  have hp : 0 < level lo hi cs (k + 1) := level_pos h0 h hcs hpos
  rcases le_total 1 (level lo hi cs 1) with hs | hs
  · have hm := level_rising h0 h hs
    have hb : lo * level lo hi cs k ≤ lo * level lo hi cs (k + 1) :=
      mul_le_mul_of_nonneg_left (hm k.le_succ) h0
    rw [clip_rising h0 h hhi (hm (Nat.zero_le k)), clip, clip, ← max_assoc, max_eq_left hb]
  · have hm := level_falling h0 h hs
    have h1 : level lo hi cs (k + 1) ≤ 1 := hm (Nat.zero_le _)
    have hb : hi * level lo hi cs (k + 1) ≤ hi * level lo hi cs k :=
      mul_le_mul_of_nonneg_left (hm k.le_succ) (h0.trans h)
    have hl : lo * level lo hi cs (k + 1) ≤ min (hi * level lo hi cs k) c :=
      le_min ((mul_le_mul_of_nonneg_right h hp.le).trans hb)
        ((mul_le_of_le_one_right h0 h1).trans hlo)
    rw [clip_falling h0 hlo (hm (Nat.zero_le k)), clip, max_eq_right hl, ← min_assoc,
      min_eq_left hb, clip_falling h0 hlo h1]

theorem clamped_sharesAt : clamped lo hi (sharesAt lo hi cs k) =
    cs.map fun c => clip lo hi (level lo hi cs (k + 1)) c / level lo hi cs (k + 1) := by
  have hp : 0 < level lo hi cs (k + 1) := level_pos h0 h hcs hpos
  rw [clamped, sharesAt, List.map_map]
  apply List.map_congr_left
  intro c hc
  rw [← clip_clip h0 h hcs hpos hc, Function.comp_apply, clip_div hp]

theorem round_sharesAt : round lo hi (sharesAt lo hi cs k) = sharesAt lo hi cs (k + 1) := by
  have hp : 0 < level lo hi cs (k + 1) := level_pos h0 h hcs hpos
  rw [round, clamped_sharesAt h0 h hcs hpos, sum_div, sharesAt, List.map_map,
    level_succ (k := k + 1), pool]
  apply List.map_congr_left
  intro c _
  exact div_div_div_cancel_right₀ hp.ne' _ _

end Sides

section Bounds

theorem near_self (heps : 0 ≤ eps) (ht : 0 ≤ t) : Near lo hi eps t t :=
  ⟨mul_le_mul_of_nonneg_right (by linarith) ht, mul_le_mul_of_nonneg_right (by linarith) ht⟩

theorem within_of_near (h : lo ≤ hi) (ht : 0 ≤ t) (hu : 0 < u) (hn : Near lo hi eps t u) :
    Within lo hi eps (cs.map fun c => clip lo hi t c / u) := by
  intro x hx
  obtain ⟨c, -, rfl⟩ := List.mem_map.mp hx
  have hb := clip_bounds (c := c) h ht
  exact ⟨(le_div_iff₀ hu).mpr (hn.1.trans hb.1), (div_le_iff₀ hu).mpr (hb.2.trans hn.2)⟩

variable (h0 : 0 ≤ lo) (h : lo ≤ hi) (heps : 0 ≤ eps)

include h0 h heps

theorem near_of_within (hw : Within lo hi eps xs) (hs : xs.sum = 1) :
    Near lo hi eps 1 (clamped lo hi xs).sum := by
  have hx : ∀ x ∈ xs, (lo - eps) * clip lo hi 1 x ≤ lo * x ∧
      hi * x ≤ (hi + eps) * clip lo hi 1 x := by
    intro x hx
    obtain ⟨h1, h2⟩ := hw x hx
    rw [clip, mul_one, mul_one]
    rcases le_total x lo with hl | hl
    · rw [max_eq_left hl, min_eq_right h]
      constructor <;> nlinarith
    · rw [max_eq_right hl]
      rcases le_total x hi with hh | hh
      · rw [min_eq_right hh]
        constructor <;> nlinarith
      · rw [min_eq_left hh]
        constructor <;> nlinarith
  have h1 : ((xs.map fun x => (lo - eps) * clip lo hi 1 x).sum) ≤ (xs.map fun x => lo * x).sum :=
    List.sum_le_sum fun x hxm => (hx x hxm).1
  have h2 : (xs.map fun x => hi * x).sum ≤ (xs.map fun x => (hi + eps) * clip lo hi 1 x).sum :=
    List.sum_le_sum fun x hxm => (hx x hxm).2
  rw [List.sum_map_mul_left, List.sum_map_mul_left, List.map_id', hs] at h1 h2
  exact ⟨h1, h2⟩

theorem within_round (hw : Within lo hi eps xs) (hs : xs.sum = 1)
    (hpos : 0 < (clamped lo hi xs).sum) : Within lo hi eps (round lo hi xs) := by
  have hn := near_of_within h0 h heps hw hs
  rw [round, clamped, List.map_map] at *
  exact within_of_near h zero_le_one hpos hn

variable (hcs : ∀ c ∈ cs, lo ≤ c ∧ c ≤ hi) (hpos : 0 < cs.sum)

include hcs hpos

/-- From the second round on, the shares are within the bounds exactly when the levels are near:
while the levels move, some share stands at the bound. -/
theorem within_sharesAt_iff : Within lo hi eps (sharesAt lo hi cs (k + 1)) ↔
    Near lo hi eps (level lo hi cs (k + 1)) (level lo hi cs (k + 2)) := by
  have hp : ∀ k, 0 < level lo hi cs k := fun k => level_pos h0 h hcs hpos
  refine ⟨fun hw => ?_, within_of_near h (hp _).le (hp _)⟩
  rcases eq_or_ne (level lo hi cs (k + 1)) (level lo hi cs (k + 2)) with heq | hne
  · rw [← heq]
    exact near_self heps (hp _).le
  -- were no share moved, the next level would be the sum, which is the first level
  have hex : ∃ c ∈ cs, clip lo hi (level lo hi cs (k + 1)) c ≠ c := by
    by_contra hno
    push Not at hno
    have hlast : level lo hi cs (k + 2) = level lo hi cs 1 := by
      rw [level_succ, pool, List.map_congr_left hno, List.map_id', level_one hcs]
    have h1 : 1 ≤ k + 1 := by omega
    rcases le_total 1 (level lo hi cs 1) with hs | hs
    · have hm := level_rising h0 h hs
      exact hne (le_antisymm (hm (k + 1).le_succ) (hlast ▸ hm h1))
    · have hm := level_falling h0 h hs
      exact hne (le_antisymm (hlast ▸ hm h1) (hm (k + 1).le_succ))
  obtain ⟨c, hc, hmoved⟩ := hex
  obtain ⟨hlow, hhigh⟩ := hw _ (List.mem_map_of_mem hc)
  rcases le_total 1 (level lo hi cs 1) with hs | hs
  · have hm := level_rising h0 h hs
    rw [clip_rising h0 h (hcs c hc).2 (hm (Nat.zero_le _))] at hmoved hlow
    rw [(max_choice _ c).resolve_right hmoved] at hlow
    have hnear : Near lo hi eps (level lo hi cs (k + 2)) (level lo hi cs (k + 2)) :=
      near_self heps (hp _).le
    exact ⟨(le_div_iff₀ (hp _)).mp hlow, hnear.2.trans' <|
      mul_le_mul_of_nonneg_left (hm (k + 1).le_succ) (h0.trans h)⟩
  · have hm := level_falling h0 h hs
    rw [clip_falling h0 (hcs c hc).1 (hm (Nat.zero_le _))] at hmoved hhigh
    rw [(min_choice _ c).resolve_right hmoved] at hhigh
    have hnear : Near lo hi eps (level lo hi cs (k + 2)) (level lo hi cs (k + 2)) :=
      near_self heps (hp _).le
    exact ⟨hnear.1.trans <|
      mul_le_mul_of_nonneg_left (hm (k + 1).le_succ) h0, (div_le_iff₀ (hp _)).mp hhigh⟩

end Bounds

/-- The first round starts the levels, whatever the shares were. -/
theorem round_eq_sharesAt (h : lo ≤ hi) : round lo hi xs = sharesAt lo hi (clamped lo hi xs) 0 := by
  have hcs : ∀ c ∈ clamped lo hi xs, lo ≤ c ∧ c ≤ hi := fun c => clamped_bounds h
  rw [round, sharesAt, level_one hcs]
  apply List.map_congr_left
  intro c hc
  simp [clip, (hcs c hc).1, (hcs c hc).2]

theorem iterate_round (h0 : 0 ≤ lo) (h : lo ≤ hi) (hpos : 0 < (clamped lo hi xs).sum) :
    (round lo hi)^[k + 1] xs = sharesAt lo hi (clamped lo hi xs) k := by
  induction k with
  | zero => exact round_eq_sharesAt h
  | succ k ih =>
    rw [Function.iterate_succ_apply', ih]
    exact round_sharesAt h0 h (fun c => clamped_bounds h) hpos

end QuantTrader.Weights
