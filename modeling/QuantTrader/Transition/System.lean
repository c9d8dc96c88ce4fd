import Mathlib.Tactic.TypeStar

/-! # Event systems

A system has events that a state may enable and that lead to a next state. An
invariant of the start that every enabled event keeps holds of every state
reached; a restricted system takes only steps that meet a condition.
-/

namespace QuantTrader.Transition

/-- Events, when they can happen, and what they do. -/
structure System (σ ε : Type*) where
  Enabled : σ → ε → Prop
  next : σ → ε → σ

namespace System

variable {σ ε : Type*} {S : System σ ε} {s₀ s : σ} {P : σ → Prop} {Q : σ → ε → Prop}

/-- The states reached from a start by enabled events. -/
inductive Reaches (S : System σ ε) (s₀ : σ) : σ → Prop
  | start : Reaches S s₀ s₀
  | step {s : σ} (e : ε) : Reaches S s₀ s → S.Enabled s e → Reaches S s₀ (S.next s e)

theorem Reaches.invariant (h₀ : P s₀) (hnext : ∀ s e, P s → S.Enabled s e → P (S.next s e))
    (h : S.Reaches s₀ s) : P s := by
  induction h with
  | start => exact h₀
  | step e _ he ih => exact hnext _ e ih he

/-- The same system with only the steps that meet a condition. -/
def restrict (S : System σ ε) (Q : σ → ε → Prop) : System σ ε where
  Enabled s e := S.Enabled s e ∧ Q s e
  next := S.next

instance [∀ s e, Decidable (S.Enabled s e)] [∀ s e, Decidable (Q s e)] (s : σ) (e : ε) :
    Decidable ((S.restrict Q).Enabled s e) :=
  inferInstanceAs (Decidable (S.Enabled s e ∧ Q s e))

theorem Reaches.of_restrict (h : (S.restrict Q).Reaches s₀ s) : S.Reaches s₀ s := by
  induction h with
  | start => exact .start
  | step e _ he ih => exact .step e ih he.1

def run (S : System σ ε) (s : σ) (es : List ε) : σ := es.foldl S.next s

/-- Every event of the list is enabled when its turn comes. -/
def Allowed (S : System σ ε) : σ → List ε → Prop
  | _, [] => True
  | s, e :: es => S.Enabled s e ∧ Allowed S (S.next s e) es

instance decidableAllowed [∀ s e, Decidable (S.Enabled s e)] : ∀ s es, Decidable (S.Allowed s es)
  | _, [] => isTrue trivial
  | s, e :: es =>
    have := decidableAllowed (S.next s e) es
    inferInstanceAs (Decidable (S.Enabled s e ∧ S.Allowed (S.next s e) es))

theorem allowed_append {es es' : List ε} :
    S.Allowed s (es ++ es') ↔ S.Allowed s es ∧ S.Allowed (S.run s es) es' := by
  induction es generalizing s with
  | nil => simp [Allowed, run]
  | cons e es ih =>
    rw [List.cons_append, Allowed, Allowed, ih, and_assoc]
    rfl

theorem Reaches.run {es : List ε} (h : S.Reaches s₀ s) (ha : S.Allowed s es) :
    S.Reaches s₀ (S.run s es) := by
  induction es generalizing s with
  | nil => exact h
  | cons e es ih => exact ih (h.step e ha.1) ha.2

end System

end QuantTrader.Transition
