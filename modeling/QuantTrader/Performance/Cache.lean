import Mathlib.Data.List.Sort
import QuantTrader.Performance.Fifo
import QuantTrader.Transition.System

/-! # The cached performance

A poll serves the cached payload as long as the number of executions of the account
is the one the payload was computed from. Executions are only appended, except by a
reset, which runs in a process of its own and leaves the cache alone. So a poll
serves what it would compute, unless a reset has deleted executions since and as
many new ones have come: then it serves the performance of the deleted ones.
-/

namespace QuantTrader.Performance

open Transition

/-- A row of `executions`. -/
structure Stored where
  executionId : String
  accountId : String
  executedAt : ℤ
  row : Row
  deriving DecidableEq

/-- `ORDER BY executed_at, execution_id`. -/
def Stored.Before (x y : Stored) : Prop :=
  x.executedAt < y.executedAt ∨ x.executedAt = y.executedAt ∧ x.executionId ≤ y.executionId

instance : DecidableRel Stored.Before := fun _ _ => inferInstanceAs (Decidable (_ ∨ _))

def payloadOf (xs : List Stored) : Payload :=
  payload ((xs.insertionSort Stored.Before).map Stored.row)

structure Entry where
  n : ℕ
  payload : Payload

/-- The table, the cache, and two history variables: the rows an entry was computed from, and
whether a reset has deleted executions of the account since. -/
structure State where
  executions : List Stored
  store : String → Option Entry
  origin : String → Option (List Stored)
  emptied : String → Bool

namespace State

def rows (s : State) (acct : String) : List Stored := s.executions.filter (·.accountId = acct)

/-- The entry a poll serves, if the count of the executions has not changed. -/
def hit (s : State) (acct : String) : Option Entry :=
  (s.store acct).filter fun e => e.n = (s.rows acct).length

def recomputed (s : State) (acct : String) : Payload := payloadOf (s.rows acct)

/-- What a poll serves. -/
def served (s : State) (acct : String) : Payload :=
  match s.hit acct with
  | some e => e.payload
  | none => s.recomputed acct

/-- What a poll leaves behind. -/
def polled (s : State) (acct : String) : State :=
  match s.hit acct with
  | some _ => s
  | none =>
    { s with
      store := Function.update s.store acct (some ⟨(s.rows acct).length, s.recomputed acct⟩)
      origin := Function.update s.origin acct (some (s.rows acct))
      emptied := Function.update s.emptied acct false }

/-- `DELETE FROM executions` for every account of a reset. -/
def reset (s : State) (ids : List String) : State :=
  { s with
    executions := s.executions.filter (·.accountId ∉ ids)
    emptied := fun acct => s.emptied acct || (acct ∈ ids && s.rows acct ≠ []) }

/-- No reset has deleted executions of the account since its entry was computed, or their number is
another one now. -/
def Current (s : State) (acct : String) : Prop :=
  s.emptied acct = true → ∀ e, s.store acct = some e → e.n ≠ (s.rows acct).length

end State

inductive Event
  | execute (x : Stored)
  | poll (acct : String)
  | reset (ids : List String)

/-- An execution has an id of its own. -/
def Event.Enabled (s : State) : Event → Prop
  | execute x => ∀ y ∈ s.executions, y.executionId ≠ x.executionId
  | poll _ => True
  | reset _ => True

def Event.next (s : State) : Event → State
  | execute x => { s with executions := s.executions ++ [x] }
  | poll acct => s.polled acct
  | reset ids => s.reset ids

def system : System State Event := ⟨Event.Enabled, Event.next⟩

instance : ∀ s e, Decidable (system.Enabled s e)
  | s, .execute _ => inferInstanceAs (Decidable (∀ y ∈ s.executions, _))
  | _, .poll _ => isTrue trivial
  | _, .reset _ => isTrue trivial

/-- A process with an empty cache over some executions. -/
def fresh (executions : List Stored) : State :=
  ⟨executions, fun _ => none, fun _ => none, fun _ => false⟩

/-- An entry holds the payload of the rows it was computed from, and until a reset deletes
executions these are the first of the account. -/
structure Tracks (s : State) : Prop where
  store_eq : ∀ acct, s.store acct = (s.origin acct).map fun old => ⟨old.length, payloadOf old⟩
  isPrefix : ∀ acct old, s.origin acct = some old → s.emptied acct = false → old <+: s.rows acct

section

variable {s s₀ : State} {acct : String} {xs : List Stored}

theorem tracks_fresh : Tracks (fresh xs) := ⟨fun _ => rfl, nofun⟩

theorem Tracks.execute (h : Tracks s) (x : Stored) :
    Tracks { s with executions := s.executions ++ [x] } where
  store_eq := h.store_eq
  isPrefix acct old ho he := by
    have hp := h.isPrefix acct old ho he
    rw [State.rows, List.filter_append]
    exact hp.trans (List.prefix_append _ _)

theorem Tracks.polled (h : Tracks s) (acct : String) : Tracks (s.polled acct) := by
  rw [State.polled]
  split
  · exact h
  · refine ⟨fun a => ?_, fun a old ho he => ?_⟩
    · rcases eq_or_ne a acct with rfl | hne
      · simp [State.recomputed]
      · simpa [Function.update_of_ne hne] using h.store_eq a
    · rcases eq_or_ne a acct with rfl | hne
      · obtain rfl : s.rows a = old := by simpa using ho
        exact List.prefix_rfl
      · simp only [Function.update_of_ne hne] at ho he
        exact h.isPrefix a old ho he

theorem rows_reset (ids : List String) :
    (s.reset ids).rows acct = if acct ∈ ids then [] else s.rows acct := by
  rw [State.rows, State.reset, List.filter_filter]
  split_ifs with hmem
  · rw [List.filter_eq_nil_iff]
    intro x _ hx
    simp only [Bool.and_eq_true, decide_eq_true_eq] at hx
    exact hx.2 (hx.1 ▸ hmem)
  · apply List.filter_congr
    intro x _
    by_cases hx : x.accountId = acct <;> simp [hx, hmem]

theorem Tracks.reset (h : Tracks s) (ids : List String) : Tracks (s.reset ids) where
  store_eq := h.store_eq
  isPrefix acct old ho he := by
    simp only [State.reset, Bool.or_eq_false_iff, Bool.and_eq_false_iff, decide_eq_false_iff_not,
      ne_eq, not_not] at he
    have hp : old <+: s.rows acct := h.isPrefix acct old ho he.1
    rw [rows_reset]
    split_ifs with hmem
    · rwa [he.2.resolve_left (not_not.mpr hmem)] at hp
    · exact hp

theorem tracks (hr : system.Reaches (fresh xs) s) : Tracks s := by
  refine hr.invariant tracks_fresh fun s e h _ => ?_
  cases e with
  | execute x => exact h.execute x
  | poll acct => exact h.polled acct
  | reset ids => exact h.reset ids

/-- A hit serves the performance of the rows its entry was computed from. -/
theorem Tracks.served_eq (h : Tracks s) (acct : String) :
    (∃ old, s.origin acct = some old ∧ old.length = (s.rows acct).length ∧
      s.served acct = payloadOf old) ∨
    (∀ old, s.origin acct = some old → old.length ≠ (s.rows acct).length) ∧
      s.served acct = s.recomputed acct := by
  rw [State.served, State.hit, h.store_eq]
  cases ho : s.origin acct with
  | none => exact Or.inr ⟨nofun, rfl⟩
  | some old =>
    by_cases hn : old.length = (s.rows acct).length
    · exact Or.inl ⟨old, rfl, hn, by simp [Option.filter, hn]⟩
    · refine Or.inr ⟨?_, by simp [Option.filter, hn]⟩
      rintro _ ⟨⟩
      exact hn

/-- In every run, a poll of a current entry serves what it would compute; the poll of another one
serves the performance of as many other executions. -/
theorem served_spec (hr : system.Reaches (fresh xs) s) :
    (s.Current acct → s.served acct = s.recomputed acct) ∧
    (¬ s.Current acct → ∃ old, s.origin acct = some old ∧
      old.length = (s.rows acct).length ∧ s.served acct = payloadOf old) := by
  have h := tracks hr
  rcases h.served_eq acct with ⟨old, ho, hlen, hserved⟩ | ⟨hmiss, hserved⟩
  · refine ⟨fun hc => ?_, fun _ => ⟨old, ho, hlen, hserved⟩⟩
    cases he : s.emptied acct with
    | true =>
      refine absurd hlen (hc he ⟨old.length, payloadOf old⟩ ?_)
      rw [h.store_eq, ho, Option.map_some]
    | false => rw [hserved, State.recomputed, (h.isPrefix acct old ho he).eq_of_length hlen]
  · refine ⟨fun _ => hserved, fun hc => absurd ?_ hc⟩
    intro _ e he hn
    rw [h.store_eq, Option.map_eq_some_iff] at he
    obtain ⟨old, ho, rfl⟩ := he
    exact hmiss old ho hn

end

section Demo

def demoBuy (id : String) (time : ℤ) : Stored := ⟨id, "demo", time, ⟨"KRW-BTC", .buy, 100, 1, 1⟩⟩

def demoSell (id : String) (time : ℤ) : Stored := ⟨id, "demo", time, ⟨"KRW-BTC", .sell, 130, 1, 1⟩⟩

/-- A round trip, a poll, a reset of the account, and two buys. -/
def demoEvents : List Event :=
  [.execute (demoBuy "1" 10), .execute (demoSell "2" 20), .poll "demo", .reset ["demo"],
    .execute (demoBuy "3" 30), .execute (demoBuy "4" 40)]

theorem demo_reaches : system.Reaches (fresh []) (system.run (fresh []) demoEvents) :=
  System.Reaches.start.run (by decide +kernel)

/-- Polls between the executions of two accounts, a reset, and one execution after it. -/
def currentEvents : List Event :=
  [.execute (demoBuy "1" 10), .poll "demo", .execute (demoSell "2" 20), .poll "demo", .poll "demo",
    .execute ⟨"3", "paper", 30, ⟨"KRW-ETH", .buy, 50, 2, 1⟩⟩, .reset ["demo"],
    .execute (demoBuy "4" 40)]

/-- The entry of two executions is not served for the one that is left. -/
theorem served_spec_demo :
    ((system.run (fresh []) currentEvents).origin "demo").map List.length = some 2 ∧
    (system.run (fresh []) currentEvents).served "demo" =
      (system.run (fresh []) currentEvents).recomputed "demo" := by
  have hreaches : system.Reaches (fresh []) (system.run (fresh []) currentEvents) :=
    System.Reaches.start.run (by decide +kernel)
  refine ⟨by decide +kernel, (served_spec hreaches).1 ?_⟩
  intro _ e he hn
  have hentry : ((system.run (fresh []) currentEvents).store "demo").map Entry.n = some 2 := by
    decide +kernel
  rw [he, Option.map_some, hn] at hentry
  exact absurd hentry (by decide +kernel)

/-- After the two buys the route still shows the sell of before the reset. -/
theorem served_deleted : ¬ ∀ s, system.Reaches (fresh []) s →
    ∀ acct, s.served acct = s.recomputed acct := by
  intro hall
  have heq := congrArg Payload.numSells (hall _ demo_reaches "demo")
  exact absurd heq (by decide +kernel)

end Demo

end QuantTrader.Performance
