import Mathlib.Algebra.Order.Ring.Int
import Mathlib.Data.List.Range
import QuantTrader.ClickHouse.Replacing
import QuantTrader.Membership.Spans

/-! # KR index membership

Every run samples the members of an index on a grid of dates and on its own day,
and inserts the spans of every symbol. A row is replaced by a later run only if
its start is an entry of that run too; the day of an earlier run may not be.
-/

namespace QuantTrader.Membership

open ClickHouse

/-- The members of a snapshot, at its date. -/
abbrev Snapshot := ℤ × List String

inductive Action
  | add
  | drop
  deriving DecidableEq

/-- The variables of `_diff`; a dict is the list of its items. -/
structure Diff where
  intervals : List (String × ℤ × ℤ)
  changes : List (ℤ × String × Action)
  prev : List String
  openStart : List (String × ℤ)
  lastSeen : String → Option ℤ

/-- 2099-12-31, in days since the epoch. -/
def far : ℤ := 47481

namespace Diff

def start : Diff := ⟨[], [], [], [], fun _ => none⟩

/-- A symbol of `cur - prev`. -/
def add (d : ℤ) (s : Diff) (sym : String) : Diff :=
  { s with
    openStart := s.openStart.filter (fun item => item.1 ≠ sym) ++ [(sym, d)]
    changes := if s.prev.isEmpty then s.changes else s.changes ++ [(d, sym, .add)] }

/-- A symbol of `prev - cur`. -/
def drop (d : ℤ) (s : Diff) (sym : String) : Diff :=
  { s with
    changes := s.changes ++ [(d, sym, .drop)]
    intervals := match s.openStart.lookup sym, s.lastSeen sym with
      | some opened, some seen => s.intervals ++ [(sym, opened, seen)]
      | _, _ => s.intervals
    openStart := s.openStart.filter fun item => item.1 ≠ sym }

def see (d : ℤ) (s : Diff) (sym : String) : Diff :=
  { s with lastSeen := fun x => if x = sym then some d else s.lastSeen x }

def joined (s : Diff) (snap : Snapshot) : Diff :=
  (snap.2.filter (· ∉ s.prev)).foldl (add snap.1) s

def parted (s : Diff) (snap : Snapshot) : Diff :=
  (s.prev.filter (· ∉ snap.2)).foldl (drop snap.1) (s.joined snap)

/-- One snapshot. -/
def next (s : Diff) (snap : Snapshot) : Diff :=
  { snap.2.foldl (see snap.1) (s.parted snap) with prev := snap.2 }

end Diff

/-- `_diff` of one index: symbols with their start and end, and the changes. -/
def diff (snaps : List Snapshot) : List (String × ℤ × ℤ) × List (ℤ × String × Action) :=
  let s := snaps.foldl Diff.next .start
  (s.intervals ++ s.openStart.map fun item => (item.1, item.2, far), s.changes)

/-! ## Runs -/

/-- The source: the members of an index by its code and a date; it is empty on some days. -/
abbrev Source := String → ℤ → List String

/-- `pd.date_range`: the dates of a frequency from a start to a day. -/
def dateRange (freq : ℤ → Bool) (start day : ℤ) : List ℤ :=
  ((List.range (day - start + 1).toNat).map fun n : ℕ => start + n).filter freq

def grid (freq : ℤ → Bool) (start today : ℤ) : List ℤ :=
  let grid := dateRange freq start today
  if grid.getLast? = some today then grid else grid ++ [today]

/-- `_snapshots`; a `frozenset` is a list without duplicates. -/
def snapshots (source : Source) (code : String) (grid : List ℤ) : List Snapshot :=
  grid.filterMap fun d => if source code d = [] then none else some (d, (source code d).dedup)

def indices : List (String × String) := [("KOSPI200", "1028"), ("KOSDAQ150", "2203")]

/-- The replacement key of `index_membership`: index, symbol and start. -/
abbrev Key := String × String × ℤ

section Run

variable (source : Source) (freq : ℤ → Bool) (start : ℤ)

def runSnapshots (code : String) (today : ℤ) : List Snapshot :=
  snapshots source code (grid freq start today)

/-- The rows that a run inserts for one index. -/
def indexRows (today : ℤ) (index : String × String) : List (Key × ℤ) :=
  (diff (runSnapshots source freq start index.2 today)).1.map fun row =>
    ((index.1, row.1, row.2.1), row.2.2)

/-- `store_kr_membership`: the rows that a run inserts into `index_membership`; a run that has none
raises. -/
def storeKrMembership (today : ℤ) : List (Key × ℤ) :=
  indices.flatMap (indexRows source freq start today)

def table (days : List ℤ) : List (Key × ℤ) := days.flatMap (storeKrMembership source freq start)

end Run

/-! ## One symbol of `_diff` -/

variable {x : String} {s : Diff} {st : Stretch ℤ} {done : List (ℤ × ℤ)} {d : ℤ}

theorem lookup_eq {items : List (String × ℤ)} {o : Option ℤ}
    (h : ∀ d, (x, d) ∈ items ↔ o = some d) : items.lookup x = o := by
  induction items with
  | nil =>
    cases o with
    | none => rfl
    | some d => exact absurd ((h d).mpr rfl) List.not_mem_nil
  | cons item items ih =>
    obtain ⟨y, d⟩ := item
    rw [List.lookup_cons]
    by_cases hy : x = y
    · subst hy
      rw [beq_self_eq_true]
      exact ((h d).mp List.mem_cons_self).symm
    · rw [beq_false_of_ne hy]
      apply ih
      intro d'
      rw [← h d', List.mem_cons]
      simp [hy]

theorem lookup_filter_ne (items : List (String × ℤ)) (x y : String) :
    (items.filter fun item => item.1 ≠ y).lookup x = if x = y then none else items.lookup x := by
  induction items with
  | nil => simp
  | cons item items ih =>
    obtain ⟨z, d⟩ := item
    by_cases hz : z = y
    · rw [List.filter_cons_of_neg (by simpa using hz), ih, List.lookup_cons]
      by_cases hx : x = y
      · simp [hx]
      · simp [hx, beq_false_of_ne (hz ▸ hx : x ≠ z)]
    · rw [List.filter_cons_of_pos (by simpa using hz), List.lookup_cons, List.lookup_cons, ih]
      by_cases hx : x = z
      · simp [hx, hz]
      · simp [beq_false_of_ne hx]

theorem Diff.mem_drop_intervals {sym x : String} {a b : ℤ} :
    (x, a, b) ∈ (s.drop d sym).intervals ↔ (x, a, b) ∈ s.intervals ∨
      x = sym ∧ s.openStart.lookup x = some a ∧ s.lastSeen x = some b := by
  unfold Diff.drop
  cases hopen : s.openStart.lookup sym with
  | none =>
    simp only
    constructor
    · exact Or.inl
    · rintro (h | ⟨rfl, hx, -⟩)
      · exact h
      · rw [hopen] at hx
        cases hx
  | some opened => cases hseen : s.lastSeen sym with
    | none =>
      simp only
      constructor
      · exact Or.inl
      · rintro (h | ⟨rfl, -, hx⟩)
        · exact h
        · rw [hseen] at hx
          cases hx
    | some seen =>
      simp only [List.mem_append, List.mem_singleton, Prod.mk.injEq]
      constructor
      · rintro (h | ⟨rfl, rfl, rfl⟩)
        · exact Or.inl h
        · exact Or.inr ⟨rfl, hopen, hseen⟩
      · rintro (h | ⟨rfl, ha, hb⟩)
        · exact Or.inl h
        · rw [hopen] at ha
          rw [hseen] at hb
          exact Or.inr ⟨rfl, (Option.some.inj ha).symm, (Option.some.inj hb).symm⟩

theorem Diff.lookup_drop (s : Diff) (d : ℤ) (sym x : String) : (s.drop d sym).openStart.lookup x =
    if x = sym then none else s.openStart.lookup x :=
  lookup_filter_ne _ _ _

theorem foldl_add (l : List String) (s : Diff) :
    (l.foldl (Diff.add d) s).prev = s.prev ∧ (l.foldl (Diff.add d) s).lastSeen = s.lastSeen ∧
    (l.foldl (Diff.add d) s).intervals = s.intervals ∧ ∀ x d', (x, d') ∈
      (l.foldl (Diff.add d) s).openStart ↔ x ∈ l ∧ d' = d ∨ x ∉ l ∧ (x, d') ∈ s.openStart := by
  induction l generalizing s with
  | nil => simp
  | cons sym l ih =>
    obtain ⟨hprev, hseen, hint, hopen⟩ := ih (s.add d sym)
    refine ⟨hprev, hseen, hint, ?_⟩
    intro x d'
    rw [List.foldl_cons, hopen]
    by_cases hx : x ∈ l
    · simp [hx]
    · by_cases hsym : x = sym
      · subst hsym
        simp [hx, Diff.add]
      · simp [hx, hsym, Diff.add]

theorem foldl_drop (l : List String) (s : Diff) :
    (l.foldl (Diff.drop d) s).prev = s.prev ∧ (l.foldl (Diff.drop d) s).lastSeen = s.lastSeen ∧
    (∀ x d', (x, d') ∈ (l.foldl (Diff.drop d) s).openStart ↔ x ∉ l ∧ (x, d') ∈ s.openStart) ∧
    ∀ x a b, (x, a, b) ∈ (l.foldl (Diff.drop d) s).intervals ↔ (x, a, b) ∈ s.intervals ∨
      x ∈ l ∧ s.openStart.lookup x = some a ∧ s.lastSeen x = some b := by
  induction l generalizing s with
  | nil => simp
  | cons sym l ih =>
    obtain ⟨hprev, hseen, hopen, hint⟩ := ih (s.drop d sym)
    refine ⟨hprev, hseen, ?_, ?_⟩
    · intro x d'
      rw [List.foldl_cons, hopen]
      simp only [Diff.drop, List.mem_filter, List.mem_cons, not_or, decide_eq_true_eq]
      tauto
    · intro x a b
      rw [List.foldl_cons, hint, Diff.mem_drop_intervals, List.mem_cons, Diff.lookup_drop]
      change (_ ∨ _ ∧ _ ∧ s.lastSeen x = some b) ↔ _
      by_cases hx : x = sym
      · simp [hx]
      · simp [hx]

theorem foldl_see (l : List String) (s : Diff) :
    (l.foldl (Diff.see d) s).intervals = s.intervals ∧
    (l.foldl (Diff.see d) s).openStart = s.openStart ∧
    ∀ x, (l.foldl (Diff.see d) s).lastSeen x = if x ∈ l then some d else s.lastSeen x := by
  induction l generalizing s with
  | nil => simp
  | cons sym l ih =>
    obtain ⟨hint, hopen, hseen⟩ := ih (s.see d sym)
    refine ⟨hint, hopen, ?_⟩
    intro x
    rw [List.foldl_cons, hseen]
    by_cases hx : x ∈ l
    · simp [hx]
    · by_cases hsym : x = sym
      · simp [hsym, Diff.see]
      · simp [hx, hsym, Diff.see]

/-- What `_diff` keeps of one symbol: the open stretch and the closed spans. -/
structure Tracks (x : String) (s : Diff) (st : Stretch ℤ) (done : List (ℤ × ℤ)) : Prop where
  prev : x ∈ s.prev ↔ st.isSome
  openStart : ∀ d, (x, d) ∈ s.openStart ↔ st.map Prod.fst = some d
  lastSeen : ∀ p, st = some p → s.lastSeen x = some p.2
  intervals : ∀ a b, (x, a, b) ∈ s.intervals ↔ (a, b) ∈ done

theorem Tracks.start : Tracks x .start none [] := by
  constructor <;> simp [Diff.start]

theorem Tracks.openStart_joined (h : Tracks x s st done) (snap : Snapshot) (d : ℤ) :
    (x, d) ∈ (s.joined snap).openStart ↔
      (if x ∈ snap.2 ∧ st = none then some snap.1 else st.map Prod.fst) = some d := by
  obtain ⟨-, -, -, hopen⟩ := foldl_add (d := snap.1) (snap.2.filter (· ∉ s.prev)) s
  have hmem : x ∈ snap.2.filter (· ∉ s.prev) ↔ x ∈ snap.2 ∧ st = none := by
    rw [List.mem_filter, decide_eq_true_eq, h.prev, Option.not_isSome_iff_eq_none]
  unfold Diff.joined
  rw [hopen, hmem, h.openStart]
  split_ifs with hjoin
  · simp [hjoin, eq_comm]
  · simp [hjoin]

theorem Tracks.parted (h : Tracks x s st done) (snap : Snapshot) :
    (∀ d, (x, d) ∈ (s.parted snap).openStart ↔
      (if x ∈ snap.2 then some ((st.map Prod.fst).getD snap.1) else none) = some d) ∧
    (s.parted snap).lastSeen x = s.lastSeen x ∧
    ∀ a b, (x, a, b) ∈ (s.parted snap).intervals ↔
      (a, b) ∈ done ++ closing st (snap.1, decide (x ∈ snap.2)) := by
  obtain ⟨-, hseen₁, hint₁, -⟩ := foldl_add (d := snap.1) (snap.2.filter (· ∉ s.prev)) s
  obtain ⟨-, hseen, hopen, hint⟩ := foldl_drop (d := snap.1) (s.prev.filter (· ∉ snap.2))
    (s.joined snap)
  have hmem : x ∈ s.prev.filter (· ∉ snap.2) ↔ st.isSome ∧ x ∉ snap.2 := by
    rw [List.mem_filter, decide_eq_true_eq, h.prev]
  have hlookup := lookup_eq (h.openStart_joined snap)
  unfold Diff.parted
  refine ⟨?_, ?_, ?_⟩
  · intro d
    rw [hopen, hmem, h.openStart_joined]
    by_cases hx : x ∈ snap.2 <;> cases st <;> simp [hx]
  · rw [hseen]
    exact congrFun hseen₁ x
  · intro a b
    have hint₁ : (s.joined snap).intervals = s.intervals := hint₁
    have hseen₁ : (s.joined snap).lastSeen = s.lastSeen := hseen₁
    rw [hint, hint₁, hmem, hlookup, hseen₁, h.intervals, List.mem_append]
    cases st with
    | none => by_cases hx : x ∈ snap.2 <;> simp [hx, closing]
    | some p =>
      rw [h.lastSeen p rfl]
      by_cases hx : x ∈ snap.2
      · simp [hx, closing]
      · simp [hx, closing, Prod.ext_iff, eq_comm]

theorem Tracks.next (h : Tracks x s st done) (snap : Snapshot) :
    Tracks x (s.next snap) (advance st (snap.1, decide (x ∈ snap.2)))
      (done ++ closing st (snap.1, decide (x ∈ snap.2))) := by
  obtain ⟨hopen, hseen, hint⟩ := h.parted snap
  obtain ⟨hint', hopen', hseen'⟩ := foldl_see (d := snap.1) snap.2 (s.parted snap)
  unfold Diff.next
  constructor
  · by_cases hx : x ∈ snap.2 <;> cases st <;> simp [hx, advance]
  · intro d
    change (x, d) ∈ (snap.2.foldl (Diff.see snap.1) (s.parted snap)).openStart ↔ _
    rw [hopen', hopen]
    by_cases hx : x ∈ snap.2 <;> cases st <;> simp [hx, advance]
  · intro p hp
    change (snap.2.foldl (Diff.see snap.1) (s.parted snap)).lastSeen x = _
    rw [hseen']
    by_cases hx : x ∈ snap.2
    · rw [if_pos hx]
      cases st with
      | none =>
        simp only [hx, decide_true, advance, Option.some.injEq] at hp
        rw [← hp]
      | some q =>
        simp only [hx, decide_true, advance, Option.some.injEq] at hp
        rw [← hp]
    · cases st <;> simp [hx, advance] at hp
  · intro a b
    change (x, a, b) ∈ (snap.2.foldl (Diff.see snap.1) (s.parted snap)).intervals ↔ _
    rw [hint', hint]

def samples (x : String) (snaps : List Snapshot) : List (ℤ × Bool) :=
  snaps.map fun snap => (snap.1, decide (x ∈ snap.2))

theorem tracks_foldl (x : String) (snaps : List Snapshot) :
    Tracks x (snaps.foldl Diff.next .start) (stretch none (samples x snaps))
      (closed none (samples x snaps)) := by
  induction snaps using List.reverseRecOn with
  | nil => exact Tracks.start
  | append_singleton snaps snap ih =>
    have hsamples : samples x (snaps ++ [snap]) =
        samples x snaps ++ [(snap.1, decide (x ∈ snap.2))] := by
      simp [samples]
    rw [List.foldl_append, hsamples, stretch_append, closed_append, closed, closed,
      List.append_nil]
    exact ih.next snap

/-- `_diff` has the spans of every symbol. -/
theorem mem_diff_iff {snaps : List Snapshot} {a b : ℤ} :
    (x, a, b) ∈ (diff snaps).1 ↔ (a, b) ∈ spans far (samples x snaps) := by
  have h := tracks_foldl x snaps
  unfold diff spans
  rw [List.mem_append, List.mem_append, h.intervals]
  apply or_congr_right
  rw [List.mem_map]
  constructor
  · rintro ⟨⟨y, d⟩, hmem, heq⟩
    simp only [Prod.mk.injEq] at heq
    obtain ⟨rfl, rfl, rfl⟩ := heq
    obtain ⟨p, hp, rfl⟩ := Option.map_eq_some_iff.mp ((h.openStart d).mp hmem)
    rw [hp]
    exact List.mem_singleton_self _
  · intro hmem
    obtain ⟨p, hp, heq⟩ := List.mem_map.mp hmem
    obtain ⟨rfl, rfl⟩ := Prod.mk.inj heq
    refine ⟨(x, p.1), ?_, rfl⟩
    rw [h.openStart, Option.mem_toList.mp hp]
    rfl

end QuantTrader.Membership
