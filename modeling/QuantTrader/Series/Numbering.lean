import Mathlib.Data.List.Count
import Mathlib.Data.List.Induction
import Mathlib.Data.List.Nodup
import Mathlib.Order.Defs.PartialOrder

/-! # Numbering within a stretch

The items of a list are numbered from zero, each stretch of equal ones anew. No number is
given twice to an item exactly when no item comes back after another one.
-/

namespace QuantTrader.Series

variable {σ : Type*} [DecidableEq σ]

/-- The number of an item after the last one and its number. -/
def nextNumber (last : Option (σ × ℕ)) (s : σ) : ℕ :=
  match last with
  | some (t, n) => if t = s then n + 1 else 0
  | none => 0

/-- The items with their numbers. -/
def number (l : List σ) : List (σ × ℕ) :=
  l.foldl (fun out s => out ++ [(s, nextNumber out.getLast? s)]) []

omit [DecidableEq σ] in
/-- No item comes back after another one. -/
def NoReturn (l : List σ) : Prop := ∀ s t, List.Sublist [s, t, s] l → s = t

variable {l : List σ} {s t : σ} {c n : ℕ}

theorem number_snoc (l : List σ) (s : σ) :
    number (l ++ [s]) = number l ++ [(s, nextNumber (number l).getLast? s)] := by
  rw [number, List.foldl_append]
  rfl

theorem map_fst_number (l : List σ) : (number l).map Prod.fst = l := by
  induction l using List.reverseRecOn with
  | nil => rfl
  | append_singleton l s ih => rw [number_snoc, List.map_append, ih]; rfl

theorem mem_of_mem_number (h : (s, c) ∈ number l) : s ∈ l := by
  rw [← map_fst_number l]
  exact List.mem_map_of_mem h

theorem getLast?_number (h : (number l).getLast? = some (t, n)) : l.getLast? = some t := by
  rw [← map_fst_number l, List.getLast?_map, h]
  rfl

theorem zero_mem_number (h : s ∈ l) : (s, 0) ∈ number l := by
  induction l using List.reverseRecOn with
  | nil => cases h
  | append_singleton l t ih =>
    rw [number_snoc]
    by_cases hs : s ∈ l
    · exact List.mem_append_left _ (ih hs)
    · obtain rfl := List.mem_singleton.mp ((List.mem_append.mp h).resolve_left hs)
      apply List.mem_append_right
      rw [List.mem_singleton]
      cases hlast : (number l).getLast? with
      | none => rfl
      | some p =>
        have hne : p.1 ≠ s := by
          rintro rfl
          exact hs (mem_of_mem_number (List.mem_of_getLast? hlast))
        rw [nextNumber, if_neg hne]

theorem number_lt_count (h : (s, c) ∈ number l) : c < l.count s := by
  induction l using List.reverseRecOn generalizing s c with
  | nil => cases h
  | append_singleton l t ih =>
    rw [number_snoc] at h
    rw [List.count_append]
    rcases List.mem_append.mp h with h | h
    · exact Nat.lt_add_right _ (ih h)
    · obtain ⟨rfl, rfl⟩ := Prod.mk.inj (List.mem_singleton.mp h)
      rw [List.count_singleton_self, Nat.lt_succ_iff]
      cases hlast : (number l).getLast? with
      | none => exact Nat.zero_le _
      | some p =>
        rw [nextNumber]
        split_ifs with hp
        · exact ih (hp ▸ List.mem_of_getLast? hlast)
        · exact Nat.zero_le _

omit [DecidableEq σ] in
theorem sublist_of_concat {m : List σ} (h : List.Sublist [s, t] (m ++ [s])) (hne : s ≠ t) :
    List.Sublist [s, t] m := by
  have hrev := h.reverse
  rw [List.reverse_concat] at hrev
  cases hrev with
  | cons _ h => exact List.reverse_sublist.mp h
  | cons_cons => exact absurd rfl hne

omit [DecidableEq σ] in
theorem noReturn_snoc : NoReturn (l ++ [s]) ↔ NoReturn l ∧ (s ∈ l → l.getLast? = some s) := by
  constructor
  · intro h
    refine ⟨fun a b hab => h a b (hab.trans (List.sublist_append_left l [s])), ?_⟩
    intro hs
    obtain ⟨m, t, rfl⟩ : ∃ m t, l = m ++ [t] :=
      ⟨_, _, (List.dropLast_append_getLast (List.ne_nil_of_mem hs)).symm⟩
    rw [List.getLast?_concat]
    rcases List.mem_append.mp hs with hs | hs
    · have hsub : List.Sublist [s, t, s] (m ++ [t] ++ [s]) :=
        ((List.singleton_sublist.mpr hs).append (List.Sublist.refl [t])).append
          (List.Sublist.refl [s])
      rw [h s t hsub]
    · rw [List.mem_singleton.mp hs]
  · rintro ⟨hl, hlast⟩ a b hab
    obtain ⟨x, y, heq, hx, hy⟩ := List.sublist_append_iff.mp hab
    rcases List.sublist_singleton.mp hy with rfl | rfl
    · rw [List.append_nil] at heq
      exact hl a b (heq ▸ hx)
    · have hxs : [a, b] ++ [a] = x ++ [s] := heq
      obtain ⟨rfl, hs⟩ := List.append_inj' hxs rfl
      obtain rfl := List.singleton_inj.mp hs
      obtain ⟨m, rfl⟩ := List.getLast?_eq_some_iff.mp (hlast (hx.subset List.mem_cons_self))
      by_contra hne
      have hsub : List.Sublist [a, b, a] (m ++ [a]) :=
        (sublist_of_concat hx hne).append (List.Sublist.refl [a])
      exact hne (hl a b hsub)

/-- The last item has the largest number of its kind. -/
theorem number_le_last (h : NoReturn l) (hlast : (number l).getLast? = some (t, n))
    (hc : (t, c) ∈ number l) : c ≤ n := by
  induction l using List.reverseRecOn generalizing t n c with
  | nil => cases hc
  | append_singleton l s ih =>
    obtain ⟨hl, hs⟩ := noReturn_snoc.mp h
    rw [number_snoc, List.getLast?_concat, Option.some.injEq] at hlast
    obtain ⟨rfl, rfl⟩ := Prod.mk.inj hlast
    rw [number_snoc] at hc
    rcases List.mem_append.mp hc with hc | hc
    · have hlast := hs (mem_of_mem_number hc)
      rw [← map_fst_number l, List.getLast?_map, Option.map_eq_some_iff] at hlast
      obtain ⟨⟨u, m⟩, hm, rfl⟩ := hlast
      rw [hm, nextNumber, if_pos rfl]
      exact Nat.le_succ_of_le (ih hl hm hc)
    · obtain ⟨-, rfl⟩ := Prod.mk.inj (List.mem_singleton.mp hc)
      exact Nat.le_refl _

/-- Every number is new exactly when no item comes back. -/
theorem number_nodup_iff : (number l).Nodup ↔ NoReturn l := by
  induction l using List.reverseRecOn with
  | nil => exact iff_of_true List.nodup_nil fun s t h => by cases h
  | append_singleton l s ih =>
    rw [number_snoc, noReturn_snoc, ← ih, ← List.concat_eq_append, List.nodup_concat, and_comm]
    apply and_congr_right
    intro hnodup
    have hl := ih.mp hnodup
    cases hlast : (number l).getLast? with
    | none =>
      have hnil : number l = [] := List.getLast?_eq_none_iff.mp hlast
      have hs : s ∉ l := by
        rw [← map_fst_number l, hnil]
        exact List.not_mem_nil
      exact iff_of_true (by rw [hnil]; exact List.not_mem_nil) (fun h => absurd h hs)
    | some p =>
      obtain ⟨t, n⟩ := p
      rw [getLast?_number hlast, nextNumber]
      split_ifs with hts
      · subst hts
        apply iff_of_true _ (fun _ => rfl)
        intro hmem
        have := number_le_last hl hlast hmem
        omega
      · rw [Option.some.injEq]
        constructor
        · exact fun hnew hs => absurd (zero_mem_number hs) hnew
        · exact fun hold hmem => hts (hold (mem_of_mem_number hmem))

theorem noReturn_of_ascending {δ : Type*} [PartialOrder δ] {l : List δ}
    (h : l.Pairwise (· ≤ ·)) : NoReturn l := by
  intro s t hsub
  obtain ⟨hs, htail⟩ := List.pairwise_cons.mp (h.sublist hsub)
  obtain ⟨ht, -⟩ := List.pairwise_cons.mp htail
  exact le_antisymm (hs t (by simp)) (ht s (by simp))

end QuantTrader.Series
