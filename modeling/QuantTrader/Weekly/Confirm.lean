import Mathlib.Data.List.ReduceOption
import QuantTrader.Weekly.Runs

/-! # Confirming fills

After its orders a run polls the account until as many symbols have changed as
orders were accepted. The test counts every placed symbol, so an order whose call
raised but which was carried out counts for an accepted one that has not been
filled. An early end is justified exactly when the test would also have passed on
the accepted orders alone, and the changes are whole shares.
-/

namespace QuantTrader.Weekly

open Transition

/-- `filled` after a poll: the symbols that have changed in the direction of their side, with the
change in shares. -/
def seen (before after : List Position) (placed : List Placed) : List (String × ℤ) :=
  (moved before after placed).map fun s =>
    (s, Nearest.halfEven.toInt |qtyOf after s - qtyOf before s|)

/-- What the polls come to; `last` is the last poll that did not fail. -/
structure Polled where
  filled : List (String × ℤ)
  last : Option (List Position)
  early : Bool

/-- The loop of `confirm_fills` over the polls there is time for; a failed poll is skipped. -/
def pollLoop (before : List Position) (placed : List Placed) :
    List (Option (List Position)) → Polled → Polled
  | [], p => p
  | none :: polls, p => pollLoop before placed polls p
  | some after :: polls, p =>
    let filled := seen before after placed
    if placed.countP (·.accepted) ≤ filled.length then ⟨filled, some after, true⟩
    else pollLoop before placed polls { p with filled := filled, last := some after }

/-- An entry of `placed` with its fill. -/
structure Confirmed extends Placed where
  filledQty : ℤ
  filled : Bool

def confirmFills (before : List Position) (placed : List Placed)
    (polls : List (Option (List Position))) : List Confirmed × Polled :=
  let p := pollLoop before placed polls ⟨[], none, false⟩
  (placed.map fun o =>
    { o with
      filledQty := (p.filled.lookup o.symbol).getD 0
      filled := o.symbol ∈ p.filled.map Prod.fst }, p)

/-- After an early end every accepted order is filled, with what the last poll shows. -/
def Justified (before : List Position) (placed : List Placed)
    (polls : List (Option (List Position))) : Prop :=
  (confirmFills before placed polls).2.early = true →
    ∀ o ∈ (confirmFills before placed polls).1, o.accepted = true →
      o.filled = true ∧ ∀ after, (confirmFills before placed polls).2.last = some after →
        (o.filledQty : ℚ) = |qtyOf after o.symbol - qtyOf before o.symbol|

/-- The first poll that shows as many changed symbols as orders were accepted. -/
def stop (before : List Position) (placed : List Placed) (polls : List (Option (List Position))) :
    Option (List Position) :=
  polls.reduceOption.find? fun after =>
    placed.countP (·.accepted) ≤ (moved before after placed).length

/-- The test of the loop, with the accepted orders alone. -/
def AcceptedMoved (before after : List Position) (placed : List Placed) : Prop :=
  placed.countP (·.accepted) ≤
    (placed.filter (·.accepted)).countP fun o => o.symbol ∈ moved before after placed

/-- The accepted orders changed by whole shares. -/
def WholeChanges (before after : List Position) (placed : List Placed) : Prop :=
  ∀ o ∈ placed, o.accepted = true → ∃ n : ℤ, |qtyOf after o.symbol - qtyOf before o.symbol| = n

section

variable {before after : List Position} {placed : List Placed}
  {polls : List (Option (List Position))} {p : Polled} {o : Placed}

theorem seen_length : (seen before after placed).length = (moved before after placed).length := by
  simp [seen]

@[simp] theorem stop_none : stop before placed (none :: polls) = stop before placed polls := by
  rw [stop, List.reduceOption_cons_of_none, stop]

theorem stop_some : stop before placed (some after :: polls) =
    if placed.countP (·.accepted) ≤ (moved before after placed).length then some after
    else stop before placed polls := by
  rw [stop, List.reduceOption_cons_of_some, List.find?_cons, stop]
  split_ifs with hle <;> simp [hle]

theorem pollLoop_of_stop (h : stop before placed polls = some after) :
    pollLoop before placed polls p = ⟨seen before after placed, some after, true⟩ := by
  induction polls generalizing p with
  | nil => cases h
  | cons poll polls ih =>
    cases poll with
    | none => exact ih (by rwa [stop_none] at h)
    | some now =>
      rw [stop_some] at h
      rw [pollLoop, seen_length]
      split_ifs at h ⊢ with hle
      · rw [Option.some.inj h]
      · exact ih h

theorem pollLoop_of_stop_none (h : stop before placed polls = none) :
    (pollLoop before placed polls p).early = p.early := by
  induction polls generalizing p with
  | nil => rfl
  | cons poll polls ih =>
    cases poll with
    | none => exact ih (by rwa [stop_none] at h)
    | some now =>
      rw [stop_some] at h
      rw [pollLoop, seen_length]
      split_ifs at h ⊢ with hle
      exact ih h

theorem seen_fst : (seen before after placed).map Prod.fst = moved before after placed := by
  simp [seen, Function.comp_def]

theorem lookup_seen {s : String} (h : s ∈ moved before after placed) :
    (seen before after placed).lookup s =
      some (Nearest.halfEven.toInt |qtyOf after s - qtyOf before s|) := by
  unfold seen
  generalize moved before after placed = l at h
  induction l with
  | nil => cases h
  | cons x xs ih =>
    rw [List.map_cons, List.lookup_cons]
    by_cases hx : s = x
    · simp [hx]
    · have hbeq : (s == x) = false := beq_eq_false_iff_ne.mpr hx
      simpa only [hbeq] using ih ((List.mem_cons.mp h).resolve_left hx)

theorem acceptedMoved_iff : AcceptedMoved before after placed ↔
    ∀ o ∈ placed, o.accepted = true → o.symbol ∈ moved before after placed := by
  have hle : (placed.filter (·.accepted)).countP
      (fun o : Placed => decide (o.symbol ∈ moved before after placed)) ≤
        (placed.filter (·.accepted)).length := List.countP_le_length
  rw [AcceptedMoved, List.countP_eq_length_filter]
  constructor
  · intro h o ho hacc
    have hall := List.countP_eq_length.mp (le_antisymm hle h)
    exact of_decide_eq_true (hall o (List.mem_filter.mpr ⟨ho, hacc⟩))
  · intro h
    refine (List.countP_eq_length.mpr fun o ho => ?_).ge
    obtain ⟨hmem, hacc⟩ := List.mem_filter.mp ho
    exact decide_eq_true (h o hmem hacc)

/-- A look of the run at the account is one poll of the loop. -/
theorem look_eq_pollLoop (w : World) (r : Running) (poll : Option (List Position)) :
    ((w.look r poll).current = w.current ∧ poll = none) ∨
      ∃ p, pollLoop r.before r.placed [poll] ⟨[], none, false⟩ = p ∧
        (w.look r poll).current =
          some { r with filled := p.filled.map Prod.fst, looking := !p.early } := by
  cases poll with
  | none => exact Or.inl ⟨rfl, rfl⟩
  | some after =>
    refine Or.inr ⟨_, rfl, ?_⟩
    rw [World.look, pollLoop, seen_length]
    split_ifs with h
    · simp [seen_fst, h]
    · simp [seen_fst, pollLoop, not_le.mp h]

theorem toInt_eq_iff {x : ℚ} : (Nearest.halfEven.toInt x : ℚ) = x ↔ ∃ n : ℤ, x = n := by
  constructor
  · exact fun h => ⟨_, h.symm⟩
  · rintro ⟨n, rfl⟩
    rw [Nearest.toInt_intCast]

/-- An early end is justified exactly when, at the poll that ends the loop, its test passes on the
accepted orders alone and their changes are whole shares. -/
theorem justified_iff : Justified before placed polls ↔
    ∀ after, stop before placed polls = some after →
      AcceptedMoved before after placed ∧ WholeChanges before after placed := by
  rw [Justified, confirmFills]
  cases hstop : stop before placed polls with
  | none => simp [pollLoop_of_stop_none hstop]
  | some after =>
    simp only [pollLoop_of_stop hstop, seen_fst, Option.some.injEq, forall_eq', forall_const,
      List.forall_mem_map, acceptedMoved_iff, decide_eq_true_eq, WholeChanges, ← forall_and]
    refine forall₃_congr fun o ho hacc => and_congr_right fun hm => ?_
    rw [lookup_seen hm]
    exact toInt_eq_iff

end

section Demo

/-- An accepted purchase, and one whose call raised although the broker has the order. -/
def demoPlaced : List Placed := [⟨"005930", .buy, true⟩, ⟨"000660", .buy, false⟩]

/-- A poll that fails, and one that shows the second purchase only. -/
def demoPolls : List (Option (List Position)) := [none, some [⟨"000660", 3, 0⟩]]

/-- The run stops looking and reports the accepted purchase as not filled. -/
theorem not_justified_demo : ¬ Justified [] demoPlaced demoPolls := by
  intro h
  have hearly : (confirmFills [] demoPlaced demoPolls).2.early = true := by decide +kernel
  have hall : (confirmFills [] demoPlaced demoPolls).1.all (fun o => !o.accepted || o.filled) := by
    rw [List.all_eq_true]
    intro o ho
    cases hacc : o.accepted with
    | false => rfl
    | true => simpa using (h hearly o ho hacc).1
  exact absurd hall (by decide +kernel)

end Demo

end QuantTrader.Weekly
