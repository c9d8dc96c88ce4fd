import Mathlib.Data.List.Nodup
import Mathlib.Data.List.Induction

/-! # Grouping in order

A dict keeps the order in which its keys came first. Items that are folded into it, each
into the entry of its key, leave every key with the fold of its own items.
-/

namespace QuantTrader.Grouping

variable {κ α β : Type*} [DecidableEq κ]

/-- The entry of a key is changed; a new key comes last. -/
def upsert (init : β) (k : κ) (f : β → β) : List (κ × β) → List (κ × β)
  | [] => [(k, f init)]
  | entry :: entries =>
    if entry.1 = k then (k, f entry.2) :: entries else entry :: upsert init k f entries

/-- Items folded into the entries of their keys. -/
def grouped (key : α → κ) (init : β) (step : β → α → β) (items : List α) : List (κ × β) :=
  items.foldl (fun entries x => upsert init (key x) (step · x) entries) []

/-- The keys in the order in which they came first. -/
def firsts (keys : List κ) : List κ :=
  keys.foldl (fun seen k => if k ∈ seen then seen else seen ++ [k]) []

variable {init : β} {f : β → β} {g : κ → β} {k : κ} {keys : List κ}

theorem firsts_snoc (keys : List κ) (k : κ) :
    firsts (keys ++ [k]) = if k ∈ firsts keys then firsts keys else firsts keys ++ [k] := by
  rw [firsts, List.foldl_append]
  rfl

@[simp] theorem mem_firsts : k ∈ firsts keys ↔ k ∈ keys := by
  induction keys using List.reverseRecOn with
  | nil => exact Iff.rfl
  | append_singleton keys j ih =>
    rw [firsts_snoc, List.mem_append, ← ih, List.mem_singleton]
    split_ifs with hj
    · constructor
      · exact Or.inl
      · rintro (h | rfl)
        · exact h
        · exact hj
    · rw [List.mem_append, List.mem_singleton]

theorem nodup_firsts (keys : List κ) : (firsts keys).Nodup := by
  induction keys using List.reverseRecOn with
  | nil => exact List.nodup_nil
  | append_singleton keys j ih =>
    rw [firsts_snoc]
    split_ifs with hj
    · exact ih
    · rw [← List.concat_eq_append]
      exact ih.concat hj

theorem firsts_filter (p : κ → Bool) (keys : List κ) :
    firsts (keys.filter p) = (firsts keys).filter p := by
  induction keys using List.reverseRecOn with
  | nil => rfl
  | append_singleton keys j ih =>
    rw [List.filter_append, firsts_snoc]
    by_cases hp : p j
    · have hj : [j].filter p = [j] := List.filter_cons_of_pos hp
      rw [hj, firsts_snoc, ih]
      simp only [List.mem_filter, hp, and_true]
      split_ifs
      · rfl
      · rw [List.filter_append, hj]
    · have hj : [j].filter p = [] := List.filter_cons_of_neg hp
      rw [hj, List.append_nil, ih]
      split_ifs
      · rfl
      · rw [List.filter_append, hj, List.append_nil]

theorem upsert_of_mem (h : keys.Nodup) (hk : k ∈ keys) :
    upsert init k f (keys.map fun j => (j, g j)) =
      keys.map fun j => (j, if j = k then f (g j) else g j) := by
  induction keys with
  | nil => cases hk
  | cons j keys ih =>
    obtain ⟨hj, hkeys⟩ := List.nodup_cons.mp h
    rw [List.map_cons, List.map_cons, upsert]
    split_ifs with heq
    · subst heq
      congr 1
      apply List.map_congr_left
      intro i hi
      rw [if_neg (ne_of_mem_of_not_mem hi hj)]
    · rw [ih hkeys ((List.mem_cons.mp hk).resolve_left (Ne.symm heq))]

theorem upsert_of_notMem (hk : k ∉ keys) : upsert init k f (keys.map fun j => (j, g j)) =
    (keys.map fun j => (j, g j)) ++ [(k, f init)] := by
  induction keys with
  | nil => rfl
  | cons j keys ih =>
    obtain ⟨hj, hkeys⟩ := not_or.mp (mt List.mem_cons.mpr hk)
    rw [List.map_cons, upsert, if_neg (Ne.symm hj), ih hkeys, List.cons_append]

/-- Every key has the fold of its own items. -/
theorem grouped_eq (key : α → κ) (step : β → α → β) (items : List α) :
    grouped key init step items = (firsts (items.map key)).map fun k =>
      (k, (items.filter fun x => key x = k).foldl step init) := by
  induction items using List.reverseRecOn with
  | nil => rfl
  | append_singleton items x ih =>
    have hown : ∀ k, ((items ++ [x]).filter fun x => key x = k).foldl step init =
        if k = key x then step ((items.filter fun x => key x = k).foldl step init) x
        else (items.filter fun x => key x = k).foldl step init := by
      intro k
      rw [List.filter_append, List.foldl_append]
      split_ifs with hk
      · simp [hk]
      · simp [Ne.symm hk]
    have hstep : grouped key init step (items ++ [x]) =
        upsert init (key x) (step · x) (grouped key init step items) := by
      rw [grouped, List.foldl_append]
      rfl
    simp only [hstep, ih, hown, List.map_append, List.map_cons, List.map_nil, firsts_snoc]
    by_cases hx : key x ∈ firsts (items.map key)
    · rw [upsert_of_mem (nodup_firsts _) hx, if_pos hx]
    · have hnone : (items.filter fun y => key y = key x) = [] := by
        rw [List.filter_eq_nil_iff]
        intro y hy heq
        rw [mem_firsts] at hx
        exact hx (List.mem_map.mpr ⟨y, hy, of_decide_eq_true heq⟩)
      rw [upsert_of_notMem hx, if_neg hx, List.map_append]
      congr 1
      · apply List.map_congr_left
        intro k hk
        rw [if_neg (ne_of_mem_of_not_mem hk hx)]
      · simp [hnone]

end QuantTrader.Grouping
