import Mathlib.Data.List.Count
import Mathlib.Data.List.Sort

/-! # Queues read with a cursor

A queue numbers its items and keeps them until a reader asks for the items from a
later number on. The reader keeps that number in memory: a new process begins at zero
and gets all that was not confirmed again. No item is lost, and no process gets an
item twice.
-/

namespace QuantTrader.Delivery

/-- A queue and its reader. Beside them stand all items that ever came, those that the queue gave
up, and what the present process and all processes have handled. -/
structure Queue (α : Type*) where
  pending : List α
  offset : ℕ
  arrived : List α
  expired : List α
  process : List α
  log : List α
  restarts : ℕ

namespace Queue

variable {α : Type*} (id : α → ℕ) (q : Queue α)

def empty : Queue α := ⟨[], 0, [], [], [], [], 0⟩

def arrive (a : α) : Queue α := { q with pending := q.pending ++ [a], arrived := q.arrived ++ [a] }

def expire (n : ℕ) : Queue α :=
  { q with pending := q.pending.drop n, expired := q.expired ++ q.pending.take n }

/-- A request reaches the queue: the items before the offset are confirmed. -/
def confirm : Queue α := { q with pending := q.pending.filter fun a => q.offset ≤ id a }

/-- The first items from the offset on. -/
def answer (n : ℕ) : List α := (q.pending.filter fun a => q.offset ≤ id a).take n

def handle (a : α) : Queue α :=
  { q with offset := id a + 1, process := q.process ++ [a], log := q.log ++ [a] }

/-- Some items one after the other. -/
def consume (as : List α) : Queue α := as.foldl (handle id) q

def restart : Queue α := { q with offset := 0, process := [], restarts := q.restarts + 1 }

/-- What holds of a queue in every run. -/
structure Tidy : Prop where
  arrived : q.arrived.Pairwise fun a b => id a < id b
  pending : q.pending.Sublist q.arrived
  /-- No item is lost. -/
  kept : ∀ a ∈ q.arrived, a ∈ q.pending ∨ a ∈ q.log ∨ a ∈ q.expired
  cursor : q.offset = 0 ∨ ∃ a ∈ q.arrived, q.offset = id a + 1
  behind : ∀ a ∈ q.arrived, id a < q.offset → a ∈ q.log ∨ a ∈ q.expired
  /-- A process handles the items in their order, none twice. -/
  process : q.process.Pairwise fun a b => id a < id b
  before : ∀ a ∈ q.process, id a < q.offset
  known : ∀ a ∈ q.log, a ∈ q.arrived
  count : ∀ n, (q.log.map id).count n ≤ q.restarts + (q.process.map id).count n

variable {id q} {a : α} {as : List α}

theorem process_consume : (q.consume id as).process = q.process ++ as := by
  induction as generalizing q with
  | nil => simp [consume]
  | cons a as ih => exact ih.trans (by simp [handle])

theorem restarts_consume : (q.consume id as).restarts = q.restarts := by
  induction as generalizing q with
  | nil => rfl
  | cons a as ih => exact ih

theorem arrived_consume : (q.consume id as).arrived = q.arrived := by
  induction as generalizing q with
  | nil => rfl
  | cons a as ih => exact ih

namespace Tidy

variable (h : Tidy id q)

theorem empty : Tidy id (Queue.empty : Queue α) := by
  constructor <;> simp [Queue.empty]

include h

/-- A process has handled each number at most once. -/
theorem count_process (n : ℕ) : (q.process.map id).count n ≤ 1 :=
  List.nodup_iff_count_le_one.mp (List.pairwise_map.mpr (h.process.imp Nat.ne_of_lt)) n

theorem offset_le (hnew : ∀ b ∈ q.arrived, id b < id a) : q.offset ≤ id a := by
  rcases h.cursor with hzero | ⟨b, hb, hoff⟩
  · exact hzero ▸ Nat.zero_le _
  · rw [hoff]
    exact hnew b hb

theorem arrive (hnew : ∀ b ∈ q.arrived, id b < id a) : Tidy id (q.arrive a) where
  arrived := List.pairwise_append.mpr
    ⟨h.arrived, List.pairwise_singleton _ _, by simpa using hnew⟩
  pending := h.pending.append (List.Sublist.refl _)
  kept b hb := by
    rcases List.mem_append.mp hb with hb | hb
    · exact (h.kept b hb).imp_left (List.mem_append_left _)
    · exact .inl (List.mem_append_right _ hb)
  cursor := h.cursor.imp_right fun ⟨b, hb, hoff⟩ => ⟨b, List.mem_append_left _ hb, hoff⟩
  behind b hb hlt := by
    rcases List.mem_append.mp hb with hb | hb
    · exact h.behind b hb hlt
    · obtain rfl := List.mem_singleton.mp hb
      exact absurd hlt (h.offset_le hnew).not_gt
  process := h.process
  before := h.before
  known b hb := List.mem_append_left _ (h.known b hb)
  count := h.count

theorem expire (n : ℕ) : Tidy id (q.expire n) where
  arrived := h.arrived
  pending := (List.drop_sublist _ _).trans h.pending
  kept b hb := by
    rcases h.kept b hb with hp | hl | he
    · rw [← List.take_append_drop n q.pending] at hp
      rcases List.mem_append.mp hp with hp | hp
      · exact .inr (.inr (List.mem_append_right _ hp))
      · exact .inl hp
    · exact .inr (.inl hl)
    · exact .inr (.inr (List.mem_append_left _ he))
  cursor := h.cursor
  behind b hb hlt := (h.behind b hb hlt).imp_right (List.mem_append_left _)
  process := h.process
  before := h.before
  known := h.known
  count := h.count

theorem confirm : Tidy id (q.confirm id) where
  arrived := h.arrived
  pending := List.filter_sublist.trans h.pending
  kept b hb := by
    rcases h.kept b hb with hp | hrest
    · rcases Nat.lt_or_ge (id b) q.offset with hlt | hge
      · exact .inr (h.behind b hb hlt)
      · exact .inl (List.mem_filter.mpr ⟨hp, decide_eq_true hge⟩)
    · exact .inr hrest
  cursor := h.cursor
  behind := h.behind
  process := h.process
  before := h.before
  known := h.known
  count := h.count

theorem handle {rest : List α} (ha : q.pending.filter (fun b => q.offset ≤ id b) = a :: rest) :
    Tidy id (q.handle id a) ∧
      (q.handle id a).pending.filter (fun b => (q.handle id a).offset ≤ id b) = rest := by
  have hmem : a ∈ q.pending.filter fun b => q.offset ≤ id b := ha ▸ List.mem_cons_self
  obtain ⟨hpending, hoff⟩ := List.mem_filter.mp hmem
  have hoff : q.offset ≤ id a := of_decide_eq_true hoff
  have harrived := h.pending.subset hpending
  have hsorted := (h.arrived.sublist h.pending).sublist
    (List.filter_sublist (p := fun b => decide (q.offset ≤ id b)))
  rw [ha, List.pairwise_cons] at hsorted
  refine ⟨⟨h.arrived, h.pending, fun b hb => ?_, .inr ⟨a, harrived, rfl⟩, fun b hb hlt => ?_, ?_,
    fun b hb => ?_, fun b hb => ?_, fun b => ?_⟩, ?_⟩
  · exact (h.kept b hb).imp_right (.imp_left (List.mem_append_left _))
  · have hle : id b ≤ id a := Nat.lt_succ_iff.mp hlt
    rcases h.kept b hb with hp | hl | he
    · rcases Nat.lt_or_ge (id b) q.offset with hlt | hge
      · exact (h.behind b hb hlt).imp_left (List.mem_append_left _)
      · have hb : b ∈ a :: rest := ha ▸ List.mem_filter.mpr ⟨hp, decide_eq_true hge⟩
        rcases List.mem_cons.mp hb with rfl | hb
        · exact .inl (List.mem_append_right _ (List.mem_singleton_self _))
        · exact absurd (hsorted.1 b hb) hle.not_gt
    · exact .inl (List.mem_append_left _ hl)
    · exact .inr he
  · refine List.pairwise_append.mpr ⟨h.process, List.pairwise_singleton _ _, fun b hb c hc => ?_⟩
    rw [List.mem_singleton.mp hc]
    exact (h.before b hb).trans_le hoff
  · rcases List.mem_append.mp hb with hb | hb
    · exact ((h.before b hb).trans_le hoff).trans (Nat.lt_succ_self _)
    · rw [List.mem_singleton.mp hb]
      exact Nat.lt_succ_self _
  · rcases List.mem_append.mp hb with hb | hb
    · exact h.known b hb
    · rwa [List.mem_singleton.mp hb]
  · have := h.count b
    simp only [Queue.handle, List.map_append, List.count_append]
    omega
  · have hcut : (q.pending.filter fun b => q.offset ≤ id b).filter (fun b => id a + 1 ≤ id b) =
        q.pending.filter fun b => id a + 1 ≤ id b := by
      rw [List.filter_filter]
      refine List.filter_congr fun b _ => ?_
      by_cases hb : id a + 1 ≤ id b
      · simp [hb, hoff.trans (Nat.le_of_succ_le hb)]
      · simp [hb]
    rw [ha, List.filter_cons_of_neg (by simp), List.filter_eq_self.mpr] at hcut
    · exact hcut.symm
    · exact fun b hb => decide_eq_true (hsorted.1 b hb)

theorem consume {rest : List α} (ha : q.pending.filter (fun b => q.offset ≤ id b) = as ++ rest) :
    Tidy id (q.consume id as) := by
  induction as generalizing q with
  | nil => exact h
  | cons a as ih =>
    obtain ⟨hnext, hrest⟩ := h.handle ha
    exact ih hnext hrest

theorem restart : Tidy id q.restart where
  arrived := h.arrived
  pending := h.pending
  kept := h.kept
  cursor := .inl rfl
  behind _ _ hlt := absurd hlt (Nat.not_lt_zero _)
  process := .nil
  before := by simp [Queue.restart]
  known := h.known
  count b := by
    have := h.count b
    have := h.count_process b
    simp only [Queue.restart, List.map_nil, List.count_nil]
    omega

end Tidy

end Queue

end QuantTrader.Delivery
