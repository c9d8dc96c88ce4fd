import Mathlib.Data.List.Sort
import Mathlib.Algebra.Order.Field.Basic
import Mathlib.Tactic.Linarith
import Mathlib.Tactic.Ring

/-! # The latest of a series

Times come in any order. Those from an instant on are the first ones when the latest comes
first, so how many there are is known from one of them. Without gaps each is at most a
step older than the one after it.
-/

namespace QuantTrader.Series

section Order

variable {α : Type*} [LinearOrder α]

def latest (times : List α) : List α := times.insertionSort (· ≥ ·)

variable {times l : List α} {start x : α} {k : ℕ}

theorem countP_eq_zero_of_head_lt (h : (x :: l).Pairwise (· ≥ ·)) (hx : x < start) :
    (x :: l).countP (start ≤ ·) = 0 := by
  refine List.countP_eq_zero.mpr ?_
  rintro y hy hle
  have hle : start ≤ y := of_decide_eq_true hle
  rcases List.mem_cons.mp hy with rfl | hy
  · exact hle.not_gt hx
  · exact (hle.trans (List.rel_of_pairwise_cons h hy)).not_gt hx

theorem lt_countP_iff (h : l.Pairwise (· ≥ ·)) :
    k < l.countP (start ≤ ·) ↔ ∃ x, l[k]? = some x ∧ start ≤ x := by
  induction l generalizing k with
  | nil => simp
  | cons y l ih =>
    have hl := (List.pairwise_cons.mp h).2
    by_cases hy : start ≤ y
    · cases k with
      | zero => simp [hy]
      | succ k => simp [hy, ih hl]
    · rw [countP_eq_zero_of_head_lt h (not_le.mp hy)]
      constructor
      · omega
      · rintro ⟨x, hx, hle⟩
        rcases List.mem_cons.mp (List.mem_of_getElem? hx) with rfl | hmem
        · exact absurd hle hy
        · exact absurd (hle.trans (List.rel_of_pairwise_cons h hmem)) hy

@[simp] theorem length_latest : (latest times).length = times.length :=
  List.length_insertionSort _ _

theorem pairwise_latest : (latest times).Pairwise (· ≥ ·) := List.pairwise_insertionSort _ _

/-- There are `n` times from `start` on exactly if the `n`th latest is one of them. -/
theorem le_countP_iff {n : ℕ} (hn : n ≤ times.length) :
    n ≤ times.countP (start ≤ ·) ↔
      ∀ x, 0 < n → (latest times)[n - 1]? = some x → start ≤ x := by
  have hperm : times.countP (start ≤ ·) = (latest times).countP (start ≤ ·) :=
    (List.perm_insertionSort _ _).countP_eq _ |>.symm
  rw [hperm]
  cases n with
  | zero => simp
  | succ k =>
    rw [Nat.succ_le_iff, lt_countP_iff pairwise_latest]
    have hk : k < (latest times).length := by rw [length_latest]; omega
    constructor
    · rintro ⟨x, hx, hle⟩ y - hy
      obtain rfl := Option.some.inj (hx.symm.trans hy)
      exact hle
    · rintro hall
      exact ⟨_, List.getElem?_eq_getElem hk, hall _ k.succ_pos (List.getElem?_eq_getElem hk)⟩

end Order

section Dense

variable {K : Type*} [Field K] [LinearOrder K] [IsStrictOrderedRing K] {step stop x : K}
  {l : List K} {k : ℕ}

/-- Without gaps the times go back a step at a time. -/
theorem le_of_isChain (h : (stop :: l).IsChain fun a b => a - step ≤ b) (hx : l[k]? = some x) :
    stop - (k + 1) * step ≤ x := by
  induction l generalizing stop k with
  | nil => simp at hx
  | cons y l ih =>
    obtain ⟨hy, hl⟩ := List.isChain_cons_cons.mp h
    cases k with
    | zero =>
      obtain rfl := Option.some.inj hx
      simpa using hy
    | succ k =>
      have hle := ih hl hx
      push_cast
      linarith

end Dense

end QuantTrader.Series
