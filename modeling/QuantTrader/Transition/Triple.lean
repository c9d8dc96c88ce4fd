import Mathlib.Tactic.TypeStar
import Mathlib.Tactic.SplitIfs

/-! # Rules for computations that can raise

A computation runs in a state and either returns or raises; what it did before it
raised stays. A triple has one postcondition for each end. A guarded computation
is undone when it raises.
-/

namespace QuantTrader.Transition

variable {ε σ α β ι : Type} {P P' : σ → Prop} {Q Q' : α → σ → Prop} {R : β → σ → Prop}
  {E E' : σ → Prop} {x : EStateM ε σ α} {f : α → EStateM ε σ β}

/-- From `P` the computation returns in `Q` or raises in `E`. -/
def Triple (P : σ → Prop) (x : EStateM ε σ α) (Q : α → σ → Prop) (E : σ → Prop) : Prop :=
  ∀ s, P s → match x s with
    | .ok a s' => Q a s'
    | .error _ s' => E s'

namespace Triple

theorem imp (h : Triple P x Q E) (hP : ∀ s, P' s → P s) (hQ : ∀ a s, Q a s → Q' a s)
    (hE : ∀ s, E s → E' s) : Triple P' x Q' E' := by
  intro s hs
  have hx := h s (hP s hs)
  cases hrun : x s with
  | ok a s' =>
    rw [hrun] at hx
    exact hQ a s' hx
  | error e s' =>
    rw [hrun] at hx
    exact hE s' hx

theorem post (h : Triple P x Q E) (hQ : ∀ a s, Q a s → Q' a s) : Triple P x Q' E :=
  h.imp (fun _ hs => hs) hQ fun _ hs => hs

theorem assuming {c : Prop} (h : c → Triple P x Q E) : Triple (fun s => c ∧ P s) x Q E := by
  rintro s ⟨hc, hs⟩
  exact h hc s hs

theorem pure (a : α) (h : ∀ s, P s → Q a s) : Triple P (pure a : EStateM ε σ α) Q E := h

theorem throw (e : ε) (h : ∀ s, P s → E s) : Triple P (throw e : EStateM ε σ α) Q E := h

theorem bind (hx : Triple P x Q E) (hf : ∀ a, Triple (Q a) (f a) R E) :
    Triple P (x >>= f) R E := by
  intro s hs
  have hxs := hx s hs
  show match EStateM.bind x f s with
    | .ok a s' => R a s'
    | .error _ s' => E s'
  unfold EStateM.bind
  cases hrun : x s with
  | ok a s' =>
    rw [hrun] at hxs
    exact hf a s' hxs
  | error e s' =>
    rw [hrun] at hxs
    exact hxs

theorem get {Q : σ → σ → Prop} (h : ∀ s, P s → Q s s) :
    Triple P (get : EStateM ε σ σ) Q E := h

theorem ite {c : Prop} [Decidable c] {x' : EStateM ε σ α} (hx : c → Triple P x Q E)
    (hx' : ¬ c → Triple P x' Q E) : Triple P (if c then x else x') Q E := by
  split_ifs with hc
  · exact hx hc
  · exact hx' hc

/-- An invariant of a loop may speak of the inputs already done. -/
theorem foldlM {l : List ι} {f : α → ι → EStateM ε σ α} {I : List ι → α → σ → Prop}
    (hf : ∀ pre i post a, l = pre ++ i :: post → Triple (I pre a) (f a i) (I (pre ++ [i])) E)
    (a : α) : Triple (I [] a) (l.foldlM f a) (I l) E := by
  have hrest : ∀ rest pre, l = pre ++ rest → ∀ a,
      Triple (I pre a) (rest.foldlM f a) (I l) E := by
    intro rest
    induction rest with
    | nil =>
      intro pre hl a
      rw [List.append_nil] at hl
      subst hl
      exact Triple.pure a fun _ hs => hs
    | cons i rest ih =>
      intro pre hl a
      rw [List.foldlM_cons]
      apply (hf pre i rest a hl).bind
      intro b
      apply ih
      rw [hl, List.append_assoc, List.singleton_append]
  exact hrest l [] rfl a

end Triple

/-- The computation, undone when it raises; `undo` gets the states before and after. -/
def guarded (undo : σ → σ → σ) (x : EStateM ε σ α) : EStateM ε σ α := fun s =>
  match x s with
  | .ok a s' => .ok a s'
  | .error e s' => .error e (undo s s')

theorem Triple.guarded {undo : σ → σ → σ}
    (h : ∀ s, P s → Triple (fun s' => s' = s) x Q fun s' => E (undo s s')) :
    Triple P (guarded undo x) Q E := by
  intro s hs
  have hx := h s hs s rfl
  unfold Transition.guarded
  cases hrun : x s with
  | ok a s' =>
    rw [hrun] at hx
    exact hx
  | error e s' =>
    rw [hrun] at hx
    exact hx

end QuantTrader.Transition
