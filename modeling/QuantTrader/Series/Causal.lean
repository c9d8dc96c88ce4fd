import Mathlib.Data.List.Basic
import Mathlib.Order.MinMax

/-! # Causal columns

A causal operation makes a column out of the rows of a table such that a row of the
column depends on the rows up to it: it commutes with cutting the table off. Cell by
cell operations, shifts, windows and everything computed from the beginning of a
column are causal, and compositions of causal operations are.
-/

namespace QuantTrader.Series

/-- An operation that keeps the length of its input and commutes with taking an initial part. -/
structure Causal (α β : Type*) where
  run : List α → List β
  length_run : ∀ l, (run l).length = l.length
  run_take : ∀ l n, run (l.take n) = (run l).take n

namespace Causal

variable {α β γ δ : Type*}

def map (f : α → β) : Causal α β where
  run := List.map f
  length_run _ := List.length_map f
  run_take _ _ := List.map_take

def comp (g : Causal β γ) (f : Causal α β) : Causal α γ where
  run l := g.run (f.run l)
  length_run l := (g.length_run _).trans (f.length_run l)
  run_take l n := by rw [f.run_take, g.run_take]

def zipWith (f : β → γ → δ) (x : Causal α β) (y : Causal α γ) : Causal α δ where
  run l := List.zipWith f (x.run l) (y.run l)
  length_run l := by rw [List.length_zipWith, x.length_run, y.length_run, min_self]
  run_take l n := by rw [x.run_take, y.run_take, List.take_zipWith]

/-- The column `k` rows later; the first rows are filled up. -/
def shift (k : ℕ) (fill : β) (x : Causal α β) : Causal α β where
  run l := (List.replicate k fill ++ x.run l).take l.length
  length_run l := by
    rw [List.length_take, List.length_append, List.length_replicate, x.length_run]
    omega
  run_take l n := by
    rw [x.run_take, List.length_take, List.take_take]
    refine List.ext_getElem? fun i => ?_
    rw [List.getElem?_take, List.getElem?_take]
    split_ifs with hi
    · rcases Nat.lt_or_ge i k with hk | hk
      · rw [List.getElem?_append_left (by simpa using hk),
          List.getElem?_append_left (by simpa using hk)]
      · rw [List.getElem?_append_right (by simpa using hk),
          List.getElem?_append_right (by simpa using hk), List.getElem?_take_of_lt]
        rw [List.length_replicate]
        omega
    · rfl

/-- A cell computed from the rows up to it. -/
def onPrefix (f : List α → β) : Causal α β where
  run l := (List.range l.length).map fun i => f (l.take (i + 1))
  length_run l := by rw [List.length_map, List.length_range]
  run_take l n := by
    rw [← List.map_take, List.take_range, List.length_take]
    refine List.map_congr_left fun i hi => ?_
    rw [List.mem_range] at hi
    rw [List.take_take, min_eq_left (by omega)]

/-- A cell computed from the last `w` rows up to it. -/
def rolling (w : ℕ) (f : List β → γ) (x : Causal α β) : Causal α γ :=
  (onPrefix fun l => f (l.drop (l.length - w))).comp x

/-- The columns of a table, by name. -/
def table : List (String × Causal α β) → Causal α (List (String × β))
  | [] => map fun _ => []
  | (name, x) :: cols => zipWith (fun b bs => (name, b) :: bs) x (table cols)

theorem exists_of_mem_zipWith {f : β → γ → δ} {x : Causal α β} {y : Causal α γ} {l : List α}
    {e : δ} (h : e ∈ (zipWith f x y).run l) :
    ∃ b ∈ x.run l, ∃ c ∈ y.run l, e = f b c := by
  obtain ⟨i, hi, rfl⟩ := List.getElem_of_mem h
  rw [length_run] at hi
  have hx : i < (x.run l).length := by rwa [length_run]
  have hy : i < (y.run l).length := by rwa [length_run]
  exact ⟨_, List.getElem_mem hx, _, List.getElem_mem hy, List.getElem_zipWith⟩

theorem map_fst_of_mem_table {cols : List (String × Causal α β)} {l : List α}
    {row : List (String × β)} (h : row ∈ (table cols).run l) :
    row.map Prod.fst = cols.map Prod.fst := by
  induction cols generalizing row with
  | nil =>
    obtain ⟨a, -, rfl⟩ := List.mem_map.mp h
    rfl
  | cons col cols ih =>
    obtain ⟨b, -, bs, hbs, rfl⟩ := exists_of_mem_zipWith h
    rw [List.map_cons, ih hbs, List.map_cons]

theorem eq_of_mem_table {cols : List (String × Causal α β)} {l : List α} {b : β}
    (hb : ∀ col ∈ cols, ∀ b' ∈ col.2.run l, b' = b) {row : List (String × β)}
    (h : row ∈ (table cols).run l) : row = cols.map fun col => (col.1, b) := by
  induction cols generalizing row with
  | nil =>
    obtain ⟨a, -, rfl⟩ := List.mem_map.mp h
    rfl
  | cons col cols ih =>
    obtain ⟨b', hb', bs, hbs, rfl⟩ := exists_of_mem_zipWith h
    rw [hb col List.mem_cons_self b' hb',
      ih (fun col hcol => hb col (List.mem_cons_of_mem _ hcol)) hbs, List.map_cons]

theorem map_run_zipWith {ε : Type*} {f : β → γ → δ} {g : δ → ε} {k : β → ε} (x : Causal α β)
    (y : Causal α γ) (hk : ∀ b c, g (f b c) = k b) (l : List α) :
    ((zipWith f x y).run l).map g = (x.run l).map k := by
  have hlen : (x.run l).length = (y.run l).length := (x.length_run l).trans (y.length_run l).symm
  refine List.ext_getElem ?_ fun i hi hi' => ?_
  · simp [zipWith, hlen]
  · simp [zipWith, hk]

section Filter

variable {p : α → Bool} {q : β → Bool} {l : List α}

/-- Where a condition holds on an initial part only, filtering by it takes that part. -/
theorem filter_eq_take (h : l.Pairwise fun a b => p b = true → p a = true) :
    l.filter p = l.take (l.countP p) := by
  induction l with
  | nil => rfl
  | cons a l ih =>
    obtain ⟨ha, hl⟩ := List.pairwise_cons.mp h
    by_cases hp : p a = true
    · rw [List.filter_cons_of_pos hp, List.countP_cons_of_pos hp, List.take_succ_cons, ih hl]
    · have hnone : ∀ b ∈ l, ¬ p b = true := fun b hb hb' => hp (ha b hb hb')
      rw [List.filter_cons_of_neg hp, List.countP_cons_of_neg hp, List.countP_eq_zero.mpr hnone,
        List.filter_eq_nil_iff.mpr hnone, List.take_zero]

/-- A causal operation on the part of a table that a condition selects, as long as the condition
holds on an initial part and is the same for a row and its result. -/
theorem run_filter (x : Causal α β) (hq : (x.run l).map q = l.map p)
    (h : l.Pairwise fun a b => p b = true → p a = true) :
    x.run (l.filter p) = (x.run l).filter q := by
  have hrun : (x.run l).Pairwise fun a b => q b = true → q a = true := by
    have hmap : (l.map p).Pairwise fun a b => b = true → a = true := List.pairwise_map.mpr h
    rw [← hq] at hmap
    exact List.pairwise_map.mp hmap
  have hcount : (x.run l).countP q = l.countP p := by
    have hid := congrArg (List.countP id) hq
    rwa [List.countP_map, List.countP_map] at hid
  rw [filter_eq_take h, filter_eq_take hrun, x.run_take, hcount]

end Filter

end Causal

end QuantTrader.Series
