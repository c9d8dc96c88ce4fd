import Mathlib.Data.List.Dedup

/-! # Replacing tables

Rows are only ever inserted; a row replaces the earlier rows of its key. A batch
holds one row for each of its keys.
-/

namespace QuantTrader.ClickHouse

variable {κ α : Type*} [DecidableEq κ] {k : κ}

def latest (k : κ) (rows : List (κ × α)) : Option α :=
  (rows.reverse.find? fun row => row.1 = k).map Prod.snd

@[simp] theorem latest_nil : latest k ([] : List (κ × α)) = none := rfl

theorem latest_append (rows batch : List (κ × α)) :
    latest k (rows ++ batch) = (latest k batch).or (latest k rows) := by
  simp only [latest, List.reverse_append, List.find?_append]
  cases batch.reverse.find? fun row => row.1 = k <;> rfl

theorem latest_cons (row : κ × α) (rows : List (κ × α)) :
    latest k (row :: rows) = (latest k rows).or (if row.1 = k then some row.2 else none) := by
  rw [← List.singleton_append, latest_append]
  by_cases h : row.1 = k <;> simp [latest, h]

theorem mem_of_latest {a : α} {rows : List (κ × α)} (h : latest k rows = some a) :
    (k, a) ∈ rows := by
  obtain ⟨row, hfind, rfl⟩ := Option.map_eq_some_iff.mp h
  have hkey := List.find?_some hfind
  obtain rfl : row.1 = k := by simpa using hkey
  exact List.mem_reverse.mp (List.mem_of_find?_eq_some hfind)

theorem latest_eq_none {rows : List (κ × α)} (h : ∀ a, (k, a) ∉ rows) : latest k rows = none := by
  cases hlast : latest k rows with
  | none => rfl
  | some a => exact absurd (mem_of_latest hlast) (h a)

theorem exists_latest {a : α} {rows : List (κ × α)} (h : (k, a) ∈ rows) :
    ∃ b, latest k rows = some b := by
  obtain ⟨before, after, rfl⟩ := List.append_of_mem h
  rw [latest_append, latest_cons]
  cases latest k after with
  | some b => exact ⟨b, rfl⟩
  | none => exact ⟨a, by simp⟩

theorem latest_eq_some {a : α} {rows : List (κ × α)} (h : (k, a) ∈ rows)
    (hall : ∀ b, (k, b) ∈ rows → b = a) : latest k rows = some a := by
  obtain ⟨b, hb⟩ := exists_latest h
  rwa [hall b (mem_of_latest hb)] at hb

/-- Rows told apart by more than their key all keep a row of theirs exactly when the rows
of one key agree on it, whatever was inserted before. -/
theorem forall_kept_iff {ι : Type*} (ident : α → ι) (before rows : List (κ × α)) :
    (∀ a, (k, a) ∈ rows → ∃ b, latest k (before ++ rows) = some b ∧ ident b = ident a) ↔
      ∀ a, (k, a) ∈ rows → ∀ b, (k, b) ∈ rows → ident a = ident b := by
  constructor
  · intro h a ha b hb
    obtain ⟨c, hc, hca⟩ := h a ha
    obtain ⟨c', hc', hcb⟩ := h b hb
    obtain rfl : c = c' := Option.some.inj (hc.symm.trans hc')
    exact hca.symm.trans hcb
  · intro h a ha
    obtain ⟨b, hb⟩ := exists_latest ha
    exact ⟨b, by rw [latest_append, hb]; rfl, h b (mem_of_latest hb) a ha⟩

/-- The rows of a batch, read from a store that has its keys. -/
def batch (store : κ → Option α) (keys : List κ) (h : ∀ k ∈ keys, (store k).isSome) :
    List (κ × α) :=
  keys.pmap (fun k hk => (k, (store k).get hk)) h

theorem latest_batch (store : κ → Option α) (keys : List κ)
    (h : ∀ k ∈ keys, (store k).isSome) :
    latest k (batch store keys h) = if k ∈ keys then store k else none := by
  induction keys with
  | nil => rfl
  | cons a keys ih =>
    rw [batch, List.pmap_cons, ← batch, latest_cons, ih]
    rcases eq_or_ne k a with rfl | hne
    · by_cases hk : k ∈ keys <;> simp [hk, Option.or_self]
    · simp [hne, hne.symm]

/-- A batch replaces the rows of its keys and no others. -/
theorem latest_append_batch (rows : List (κ × α)) (store : κ → Option α) (keys : List κ)
    (h : ∀ k ∈ keys, (store k).isSome) :
    latest k (rows ++ batch store keys h) = if k ∈ keys then store k else latest k rows := by
  rw [latest_append, latest_batch]
  by_cases hk : k ∈ keys
  · obtain ⟨a, ha⟩ := Option.isSome_iff_exists.mp (h k hk)
    simp [hk, ha]
  · simp [hk]

/-- Dropping rows by their key drops whole keys. -/
theorem latest_filter (rows : List (κ × α)) (p : κ → Bool) :
    latest k (rows.filter fun row => p row.1) = if p k then latest k rows else none := by
  unfold latest
  rw [← List.filter_reverse, List.find?_filter]
  split_ifs with hp
  · congr 2
    funext row
    by_cases hk : row.1 = k
    · simp [hk, hp]
    · simp [hk]
  · rw [Option.map_eq_none_iff, List.find?_eq_none]
    rintro row - h
    obtain ⟨hrow, hk⟩ : p row.1 = true ∧ row.1 = k := by simpa using h
    rw [hk] at hrow
    exact hp hrow

/-- A batch of which only some keys were written. -/
theorem latest_append_filter_batch (rows : List (κ × α)) (store : κ → Option α) (keys : List κ)
    (h : ∀ k ∈ keys, (store k).isSome) (p : κ → Bool) :
    latest k (rows ++ (batch store keys h).filter fun row => p row.1) =
      if k ∈ keys ∧ p k then store k else latest k rows := by
  rw [latest_append, latest_filter, latest_batch]
  by_cases hk : k ∈ keys
  · obtain ⟨a, ha⟩ := Option.isSome_iff_exists.mp (h k hk)
    by_cases hp : p k = true <;> simp [hk, hp, ha]
  · by_cases hp : p k = true <;> simp [hk, hp]

/-! ## Reading a table -/

variable {key : α → κ} {table : List α} {r : α}

def keyed (key : α → κ) (table : List α) : List (κ × α) :=
  table.map fun r => (key r, r)

/-- `FINAL`: the last row of every key. -/
def final (key : α → κ) (table : List α) : List α :=
  (table.map key).dedup.filterMap fun k => latest k (keyed key table)

omit [DecidableEq κ] in
theorem mem_keyed : (k, r) ∈ keyed key table ↔ r ∈ table ∧ key r = k := by
  unfold keyed
  rw [List.mem_map]
  constructor
  · rintro ⟨r', hmem, heq⟩
    obtain ⟨rfl, rfl⟩ := Prod.mk.inj heq
    exact ⟨hmem, rfl⟩
  · rintro ⟨hmem, rfl⟩
    exact ⟨r, hmem, rfl⟩

omit [DecidableEq κ] in
theorem keyed_append (before after : List α) :
    keyed key (before ++ after) = keyed key before ++ keyed key after := List.map_append

theorem mem_of_latest_keyed (h : latest k (keyed key table) = some r) : r ∈ table ∧ key r = k :=
  mem_keyed.mp (mem_of_latest h)

theorem exists_latest_keyed (key : α → κ) (h : r ∈ table) :
    ∃ r', latest (key r) (keyed key table) = some r' :=
  exists_latest (mem_keyed.mpr ⟨h, rfl⟩)

theorem mem_final : r ∈ final key table ↔ latest (key r) (keyed key table) = some r := by
  unfold final
  rw [List.mem_filterMap]
  constructor
  · rintro ⟨k, -, hlast⟩
    obtain ⟨-, rfl⟩ := mem_of_latest_keyed hlast
    exact hlast
  · intro hlast
    obtain ⟨hmem, -⟩ := mem_of_latest_keyed hlast
    exact ⟨key r, List.mem_dedup.mpr (List.mem_map_of_mem hmem), hlast⟩

theorem exists_mem_final_iff {p : κ → Prop} :
    (∃ r ∈ final key table, p (key r)) ↔ ∃ r ∈ table, p (key r) := by
  constructor
  · rintro ⟨r, hr, hp⟩
    exact ⟨r, (mem_of_latest_keyed (mem_final.mp hr)).1, hp⟩
  · rintro ⟨r, hr, hp⟩
    obtain ⟨r', hlast⟩ := exists_latest_keyed key hr
    obtain ⟨-, hkey⟩ := mem_of_latest_keyed hlast
    rw [← hkey] at hp hlast
    exact ⟨r', mem_final.mpr hlast, hp⟩

theorem filter_filterMap_key (f : κ → Option α) (hf : ∀ k r, f k = some r → key r = k) :
    ∀ {keys : List κ}, keys.Nodup →
      (keys.filterMap f).filter (fun r => key r = k) = if k ∈ keys then (f k).toList else []
  | [], _ => rfl
  | k' :: keys, hnodup => by
    obtain ⟨hnot, hkeys⟩ := List.nodup_cons.mp hnodup
    have ih := filter_filterMap_key f hf hkeys
    rcases eq_or_ne k k' with rfl | hne
    · rw [if_neg hnot] at ih
      cases hk : f k with
      | none => simp [hk, ih]
      | some r => simp [hk, ih, hf k r hk]
    · cases hk : f k' with
      | none => simp [hk, ih, hne]
      | some r => simp [hk, ih, hf k' r hk, hne, hne.symm]

theorem filter_final :
    (final key table).filter (fun r => key r = k) = (latest k (keyed key table)).toList := by
  rw [final, filter_filterMap_key _ (fun _ _ h => (mem_of_latest_keyed h).2) (List.nodup_dedup _)]
  split_ifs with hk
  · rfl
  · rw [latest_eq_none]
    · rfl
    intro r hr
    obtain ⟨hmem, rfl⟩ := mem_keyed.mp hr
    exact hk (List.mem_dedup.mpr (List.mem_map_of_mem hmem))

end QuantTrader.ClickHouse
