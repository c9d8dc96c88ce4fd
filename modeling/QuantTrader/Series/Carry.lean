import Mathlib.Data.List.TakeWhile
import Mathlib.Order.Basic
import Mathlib.Tactic.Linarith

/-! # The last value up to a date

In a series ascending in date the points up to a date are a prefix. A cursor that
only moves forward and a binary search both find where that prefix ends, so both
read the last value up to the date.
-/

namespace QuantTrader.Series

variable {δ β : Type*} [LinearOrder δ]

/-- `bisect_right` between two positions. -/
def bisectRight (a : List δ) (x : δ) (lo hi : ℕ) : ℕ :=
  if lo < hi then
    let mid := (lo + hi) / 2
    match a[mid]? with
    | some v => if x < v then bisectRight a x lo mid else bisectRight a x (mid + 1) hi
    | none => lo
  else lo
termination_by hi - lo

/-- A cursor moves over the points up to a date and keeps the last value it met. -/
def advance (pts : List (δ × β)) (d : δ) (i : ℕ) (last : Option β) : ℕ × Option β :=
  match _ : pts[i]? with
  | some p => if p.1 ≤ d then advance pts d (i + 1) (some p.2) else (i, last)
  | none => (i, last)
termination_by pts.length - i
decreasing_by
  have := (List.getElem?_eq_some_iff.mp ‹pts[i]? = some p›).1
  omega

/-- The last value dated up to a date. -/
def upTo (pts : List (δ × β)) (d : δ) : Option β :=
  ((pts.filter (·.1 ≤ d)).getLast?).map Prod.snd

/-- How many points at the front are dated up to a date. -/
def reach (pts : List (δ × β)) (d : δ) : ℕ := (pts.takeWhile (·.1 ≤ d)).length

/-- The value of the last of the first points. -/
def lastOf (pts : List (δ × β)) (i : ℕ) : Option β := ((pts.take i).getLast?).map Prod.snd

variable {pts : List (δ × β)} {a : List δ} {d e x : δ} {i lo hi : ℕ}

omit [LinearOrder δ] in
@[simp] theorem lastOf_zero : lastOf pts 0 = none := by simp [lastOf]

omit [LinearOrder δ] in
theorem lastOf_succ {p : δ × β} (h : pts[i]? = some p) : lastOf pts (i + 1) = some p.2 := by
  simp [lastOf, List.take_add_one, h]

theorem reach_le_length : reach pts d ≤ pts.length := (List.takeWhile_prefix _).length_le

theorem reach_cons {p : δ × β} :
    reach (p :: pts) d = if p.1 ≤ d then reach pts d + 1 else 0 := by
  unfold reach
  rw [List.takeWhile_cons]
  split_ifs <;> simp_all

theorem reach_mono (h : d ≤ e) : reach pts d ≤ reach pts e := by
  induction pts with
  | nil => simp [reach]
  | cons p pts ih =>
    rw [reach_cons, reach_cons]
    by_cases hp : p.1 ≤ d
    · rw [if_pos hp, if_pos (hp.trans h)]
      omega
    · simp [hp]

/-- In an ascending series the points up to a date stand before the reach. -/
theorem lt_reach_iff (hs : pts.Pairwise fun p q => p.1 ≤ q.1) {p : δ × β} (hp : pts[i]? = some p) :
    i < reach pts d ↔ p.1 ≤ d := by
  induction pts generalizing i with
  | nil => simp at hp
  | cons q pts ih =>
    rw [List.pairwise_cons] at hs
    rw [reach_cons]
    cases i with
    | zero =>
      obtain rfl : q = p := by simpa using hp
      split_ifs with h <;> simp [h]
    | succ i =>
      rw [List.getElem?_cons_succ] at hp
      have hq : q.1 ≤ p.1 := hs.1 p (List.mem_of_getElem? hp)
      split_ifs with h
      · rw [← ih hs.2 hp]
        omega
      · exact iff_of_false (by omega) fun hle => h (hq.trans hle)

theorem upTo_eq_lastOf (hs : pts.Pairwise fun p q => p.1 ≤ q.1) :
    upTo pts d = lastOf pts (reach pts d) := by
  have hfilter : pts.filter (·.1 ≤ d) = pts.take (reach pts d) := by
    induction pts with
    | nil => rfl
    | cons p pts ih =>
      rw [List.pairwise_cons] at hs
      rw [reach_cons, List.filter_cons]
      split_ifs with h h' h'
      · rw [List.take_succ_cons, ih hs.2]
      · simp_all
      · simp_all
      · rw [List.take_zero, List.filter_eq_nil_iff]
        intro q hq hle
        exact h' ((hs.1 q hq).trans (of_decide_eq_true hle))
  rw [upTo, hfilter, lastOf]

/-- A cursor that is not past the reach of a date ends there. -/
theorem advance_eq (hs : pts.Pairwise fun p q => p.1 ≤ q.1) {last : Option β}
    (hlast : last = lastOf pts i) (hi : i ≤ reach pts d) :
    advance pts d i last = (reach pts d, lastOf pts (reach pts d)) := by
  fun_induction advance pts d i last with
  | case1 i last p hp hle ih =>
    exact ih (lastOf_succ hp).symm ((lt_reach_iff hs hp).mpr hle)
  | case2 i last p hp hle =>
    have hr : ¬ i < reach pts d := fun h => hle ((lt_reach_iff hs hp).mp h)
    obtain rfl : i = reach pts d := by omega
    rw [hlast]
  | case3 i last hp =>
    have hlen : pts.length ≤ i := List.getElem?_eq_none_iff.mp hp
    have hr : reach pts d ≤ pts.length := reach_le_length
    obtain rfl : i = reach pts d := by omega
    rw [hlast]

theorem bisectRight_eq (hs : pts.Pairwise fun p q => p.1 ≤ q.1) (hlo : lo ≤ reach pts d)
    (hhi : reach pts d ≤ hi) (hlen : hi ≤ pts.length) :
    bisectRight (pts.map Prod.fst) d lo hi = reach pts d := by
  fun_induction bisectRight (pts.map Prod.fst) d lo hi with
  | case1 lo hi h mid v hv hlt ih =>
    rw [List.getElem?_map, Option.map_eq_some_iff] at hv
    obtain ⟨p, hp, rfl⟩ := hv
    have hr : ¬ mid < reach pts d := fun hr => ((lt_reach_iff hs hp).mp hr).not_gt hlt
    exact ih hlo (by omega) (by omega)
  | case2 lo hi h mid v hv hlt ih =>
    rw [List.getElem?_map, Option.map_eq_some_iff] at hv
    obtain ⟨p, hp, rfl⟩ := hv
    have hr : mid < reach pts d := (lt_reach_iff hs hp).mpr (not_lt.mp hlt)
    exact ih (by omega) hhi hlen
  | case3 lo hi h mid hv =>
    rw [List.getElem?_map, Option.map_eq_none_iff, List.getElem?_eq_none_iff] at hv
    omega
  | case4 lo hi h => omega

theorem upTo_isSome_iff : (∃ v, upTo pts d = some v) ↔ ∃ p ∈ pts, p.1 ≤ d := by
  constructor
  · rintro ⟨v, hv⟩
    obtain ⟨p, hp, -⟩ := Option.map_eq_some_iff.mp hv
    have hmem := List.mem_filter.mp (List.mem_of_getLast? hp)
    exact ⟨p, hmem.1, of_decide_eq_true hmem.2⟩
  · rintro ⟨p, hp, hle⟩
    have hne : pts.filter (·.1 ≤ d) ≠ [] :=
      List.ne_nil_of_mem (List.mem_filter.mpr ⟨hp, decide_eq_true hle⟩)
    exact ⟨_, by rw [upTo, List.getLast?_eq_some_getLast hne, Option.map_some]⟩

end QuantTrader.Series
