import Mathlib.Data.List.Nodup
import Mathlib.Data.Int.Notation
import Mathlib.Data.Int.Order.Basic
import Mathlib.Tactic.TypeStar

/-! # Slots

A portfolio with a bounded number of slots. A move opens a position of a symbol
that has none, in a free slot, or closes a whole position; a list of moves is
played only if every one of them is.
-/

namespace QuantTrader.Portfolio

inductive Move (κ : Type*)
  | opens (sym : κ) (n : ℤ)
  | closes (sym : κ) (n : ℤ)

variable {κ : Type*} [DecidableEq κ] {cap : ℤ} {slots slots' : List (κ × ℤ)} {m : Move κ}
  {ms ms' : List (Move κ)}

def Move.play (cap : ℤ) (slots : List (κ × ℤ)) : Move κ → Option (List (κ × ℤ))
  | .opens sym n =>
    if sym ∉ slots.map Prod.fst ∧ (slots.length : ℤ) < cap ∧ 0 < n then some (slots ++ [(sym, n)])
    else none
  | .closes sym n =>
    if (sym, n) ∈ slots then some (slots.filter fun e => e.1 ≠ sym) else none

/-- The slots after moves that are all allowed in their turn. -/
def play (cap : ℤ) : List (κ × ℤ) → List (Move κ) → Option (List (κ × ℤ)) :=
  List.foldlM (Move.play cap)

theorem play_append :
    play cap slots (ms ++ ms') = (play cap slots ms).bind fun slots' => play cap slots' ms' :=
  List.foldlM_append

@[simp] theorem play_singleton : play cap slots [m] = m.play cap slots := by
  rw [play, List.foldlM_cons, Option.bind_eq_bind]
  exact Option.bind_fun_some _

theorem Move.play_opens {sym : κ} {n : ℤ} (hsym : sym ∉ slots.map Prod.fst)
    (hcap : (slots.length : ℤ) < cap) (hn : 0 < n) :
    (Move.opens sym n).play cap slots = some (slots ++ [(sym, n)]) :=
  if_pos ⟨hsym, hcap, hn⟩

theorem Move.play_closes {sym : κ} {n : ℤ} (h : (sym, n) ∈ slots) :
    (Move.closes sym n).play cap slots = some (slots.filter fun e => e.1 ≠ sym) :=
  if_pos h

theorem Move.length_le (h : m.play cap slots = some slots') :
    (slots'.length : ℤ) ≤ max cap slots.length := by
  cases m with
  | opens sym n =>
    simp only [play, Option.ite_none_right_eq_some, Option.some.injEq] at h
    obtain ⟨⟨-, hcap, -⟩, rfl⟩ := h
    rw [List.length_append, List.length_singleton]
    omega
  | closes sym n =>
    simp only [play, Option.ite_none_right_eq_some, Option.some.injEq] at h
    obtain ⟨-, rfl⟩ := h
    have := List.length_filter_le (fun e : κ × ℤ => decide (e.1 ≠ sym)) slots
    omega

/-- Moves never take more slots than the cap. -/
theorem length_le (h : play cap slots ms = some slots') :
    (slots'.length : ℤ) ≤ max cap slots.length := by
  induction ms generalizing slots with
  | nil =>
    obtain rfl := Option.some.inj h
    omega
  | cons m ms ih =>
    obtain ⟨mid, hm, hms⟩ := Option.bind_eq_some_iff.mp h
    have hmid := Move.length_le hm
    have hend := ih hms
    omega

theorem length_close {sym : κ} {n : ℤ} (hnodup : (slots.map Prod.fst).Nodup)
    (h : (sym, n) ∈ slots) : (slots.filter fun e => e.1 ≠ sym).length + 1 = slots.length := by
  obtain ⟨l₁, l₂, rfl⟩ := List.append_of_mem h
  rw [List.map_append, List.map_cons, List.nodup_middle, List.nodup_cons,
    ← List.map_append] at hnodup
  have hkeep : ∀ e ∈ l₁ ++ l₂, decide (e.1 ≠ sym) = true := by
    intro e he
    exact decide_eq_true fun heq => hnodup.1 (List.mem_map.mpr ⟨e, he, heq⟩)
  have hfilter : (l₁ ++ (sym, n) :: l₂).filter (fun e => e.1 ≠ sym) = l₁ ++ l₂ := by
    rw [List.filter_append, List.filter_cons_of_neg (by simp), ← List.filter_append]
    exact List.filter_eq_self.mpr hkeep
  rw [hfilter, List.length_append, List.length_append, List.length_cons]
  omega

end QuantTrader.Portfolio
