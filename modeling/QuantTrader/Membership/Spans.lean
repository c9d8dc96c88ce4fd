import Mathlib.Order.Lattice
import Mathlib.Data.List.Induction
import Mathlib.Data.List.Nodup

/-! # Spans of a sampled flag

A flag is sampled at increasing times. Its spans run from the first sample of a
stretch of true ones to the last; a stretch that reaches the end of the samples
is left open and ends at a far time.
-/

namespace QuantTrader.Membership

variable {τ : Type}

/-- The open stretch: its start and the last sample of it. -/
abbrev Stretch (τ : Type) := Option (τ × τ)

/-- The stretch after one more sample. -/
def advance : Stretch τ → τ × Bool → Stretch τ
  | none, (t, true) => some (t, t)
  | some (s, _), (t, true) => some (s, t)
  | _, (_, false) => none

/-- The span that a sample closes. -/
def closing : Stretch τ → τ × Bool → List (τ × τ)
  | some (s, e), (_, false) => [(s, e)]
  | _, _ => []

/-- The spans closed by samples. -/
def closed : Stretch τ → List (τ × Bool) → List (τ × τ)
  | _, [] => []
  | st, x :: xs => closing st x ++ closed (advance st x) xs

/-- The stretch that is open after samples. -/
def stretch (st : Stretch τ) (xs : List (τ × Bool)) : Stretch τ := xs.foldl advance st

def openSpan (far : τ) (st : Stretch τ) : List (τ × τ) := st.toList.map fun p => (p.1, far)

def spans (far : τ) (xs : List (τ × Bool)) : List (τ × τ) :=
  closed none xs ++ openSpan far (stretch none xs)

/-- The samples at which a stretch begins. -/
def entries : Stretch τ → List (τ × Bool) → List τ
  | _, [] => []
  | st, x :: xs => (if st.isNone && x.2 then [x.1] else []) ++ entries (advance st x) xs

variable {st : Stretch τ} {xs ys : List (τ × Bool)} {far t s e : τ}

theorem stretch_append : stretch st (xs ++ ys) = stretch (stretch st xs) ys :=
  List.foldl_append

theorem closed_append : closed st (xs ++ ys) = closed st xs ++ closed (stretch st xs) ys := by
  induction xs generalizing st with
  | nil => rfl
  | cons x xs ih =>
    rw [List.cons_append, closed, closed, ih, List.append_assoc]
    rfl

theorem entries_append : entries st (xs ++ ys) = entries st xs ++ entries (stretch st xs) ys := by
  induction xs generalizing st with
  | nil => rfl
  | cons x xs ih =>
    rw [List.cons_append, entries, entries, ih, List.append_assoc]
    rfl

/-- The starts of the spans are the entries, after the start of a stretch that was open before. -/
theorem map_fst_spans (st : Stretch τ) (xs : List (τ × Bool)) :
    (closed st xs ++ openSpan far (stretch st xs)).map Prod.fst =
      st.toList.map Prod.fst ++ entries st xs := by
  induction xs generalizing st with
  | nil => cases st <;> rfl
  | cons x xs ih =>
    obtain ⟨t, b⟩ := x
    have hrest := ih (advance st (t, b))
    rw [closed, List.append_assoc, List.map_append]
    change _ ++ (closed (advance st (t, b)) xs ++
      openSpan far (stretch (advance st (t, b)) xs)).map Prod.fst = _
    rw [hrest, entries]
    cases st with
    | none => cases b <;> rfl
    | some p => cases b <;> rfl

theorem mem_entries_iff : s ∈ entries none xs ↔ ∃ e, (s, e) ∈ spans far xs := by
  have hmap : (spans far xs).map Prod.fst = entries none xs := map_fst_spans none xs
  rw [← hmap, List.mem_map]
  constructor
  · rintro ⟨⟨s, e⟩, hmem, rfl⟩
    exact ⟨e, hmem⟩
  · rintro ⟨e, hmem⟩
    exact ⟨(s, e), hmem, rfl⟩

theorem closed_snoc (x : τ × Bool) :
    closed none (xs ++ [x]) = closed none xs ++ closing (stretch none xs) x := by
  rw [closed_append, closed, closed, List.append_nil]

theorem stretch_snoc (x : τ × Bool) :
    stretch none (xs ++ [x]) = advance (stretch none xs) x := by
  rw [stretch_append]
  rfl

theorem entries_sublist : List.Sublist (entries st xs) (xs.map Prod.fst) := by
  induction xs generalizing st with
  | nil => exact List.Sublist.refl _
  | cons x xs ih =>
    rw [entries, List.map_cons]
    split_ifs
    · exact ih.cons_cons _
    · exact ih.cons _

section Order

variable [LinearOrder τ] {b : Bool}

/-- What is known after samples: closed spans lie before the last sample, which an open stretch
reaches, and the flags are those of the spans. -/
structure Sampled (xs : List (τ × Bool)) : Prop where
  closed_le : ∀ s e, (s, e) ∈ closed none xs → ∃ x ∈ xs, e ≤ x.1
  stretch_le : ∀ s e, stretch none xs = some (s, e) → s ≤ e ∧ (∃ x ∈ xs, e = x.1) ∧
    ∀ x ∈ xs, x.1 ≤ e
  flags : ∀ t b, (t, b) ∈ xs → (b = true ↔ (∃ s e, (s, e) ∈ closed none xs ∧ s ≤ t ∧ t ≤ e) ∨
    ∃ s e, stretch none xs = some (s, e) ∧ s ≤ t)

theorem Sampled.nil : Sampled ([] : List (τ × Bool)) := ⟨nofun, nofun, nofun⟩

theorem Sampled.stretch_true (h : Sampled xs) (hlt : ∀ x ∈ xs, x.1 < t) :
    ∃ s, stretch none (xs ++ [(t, true)]) = some (s, t) ∧ s ≤ t ∧
      ∀ t' < t, (∃ s e, stretch none xs = some (s, e) ∧ s ≤ t') ↔ s ≤ t' := by
  rw [stretch_snoc]
  cases hst : stretch none xs with
  | none =>
    refine ⟨t, rfl, le_rfl, ?_⟩
    intro t' ht'
    constructor
    · rintro ⟨s, e, hsome, -⟩
      cases hsome
    · exact fun hle => absurd hle ht'.not_ge
  | some p =>
    obtain ⟨s, e⟩ := p
    obtain ⟨hse, ⟨x, hx, rfl⟩, -⟩ := h.stretch_le s e hst
    refine ⟨s, rfl, hse.trans (hlt x hx).le, ?_⟩
    intro t' _
    constructor
    · rintro ⟨s', e', hsome, hle⟩
      obtain ⟨rfl, rfl⟩ := Prod.mk.inj (Option.some.inj hsome)
      exact hle
    · exact fun hle => ⟨s, x.1, rfl, hle⟩

theorem Sampled.snoc_true (h : Sampled xs) (hlt : ∀ x ∈ xs, x.1 < t) :
    Sampled (xs ++ [(t, true)]) := by
  have hclosed : closed none (xs ++ [(t, true)]) = closed none xs := by
    rw [closed_snoc]
    cases stretch none xs <;> exact List.append_nil _
  obtain ⟨s, hst, hst', hold⟩ := h.stretch_true hlt
  constructor
  · intro s' e hmem
    rw [hclosed] at hmem
    obtain ⟨x, hx, hle⟩ := h.closed_le s' e hmem
    exact ⟨x, List.mem_append_left _ hx, hle⟩
  · intro s' e hsome
    rw [hst] at hsome
    obtain ⟨rfl, rfl⟩ := Prod.mk.inj (Option.some.inj hsome)
    refine ⟨hst', ⟨(t, true), by simp, rfl⟩, ?_⟩
    intro x hx
    rcases List.mem_append.mp hx with hx | hx
    · exact (hlt x hx).le
    · rw [List.mem_singleton.mp hx]
  · intro t' b hmem
    rw [hclosed, hst]
    have hiff : (∃ s' e, some (s, t) = some (s', e) ∧ s' ≤ t') ↔ s ≤ t' := by simp
    rw [hiff]
    rcases List.mem_append.mp hmem with hmem | hmem
    · rw [h.flags t' b hmem, hold t' (hlt _ hmem)]
    · obtain ⟨rfl, rfl⟩ := Prod.mk.inj (List.mem_singleton.mp hmem)
      exact iff_of_true rfl (Or.inr hst')

theorem Sampled.closing_iff (h : Sampled xs) {t' : τ} (hmem : (t', b) ∈ xs) :
    (∃ s e, (s, e) ∈ closing (stretch none xs) (t, false) ∧ s ≤ t' ∧ t' ≤ e) ↔
      ∃ s e, stretch none xs = some (s, e) ∧ s ≤ t' := by
  cases hst : stretch none xs with
  | none => exact iff_of_false (by rintro ⟨s, e, hspan, -⟩; cases hspan) (by simp)
  | some p =>
    obtain ⟨s, e⟩ := p
    obtain ⟨-, -, hle⟩ := h.stretch_le s e hst
    constructor
    · rintro ⟨s', e', hspan, hs, -⟩
      obtain ⟨rfl, rfl⟩ := Prod.mk.inj (List.mem_singleton.mp hspan)
      exact ⟨s', e', rfl, hs⟩
    · rintro ⟨s', e', hsome, hs⟩
      obtain ⟨rfl, rfl⟩ := Prod.mk.inj (Option.some.inj hsome)
      exact ⟨s, e, List.mem_singleton_self _, hs, hle _ hmem⟩

theorem Sampled.closing_le (h : Sampled xs) (hmem : (s, e) ∈ closing (stretch none xs) (t, false)) :
    ∃ x ∈ xs, e ≤ x.1 := by
  cases hst : stretch none xs with
  | none =>
    rw [hst] at hmem
    cases hmem
  | some p =>
    rw [hst] at hmem
    obtain ⟨rfl, rfl⟩ := Prod.mk.inj (List.mem_singleton.mp hmem)
    obtain ⟨-, ⟨x, hx, heq⟩, -⟩ := h.stretch_le _ _ hst
    exact ⟨x, hx, heq.le⟩

theorem Sampled.snoc_false (h : Sampled xs) (hlt : ∀ x ∈ xs, x.1 < t) :
    Sampled (xs ++ [(t, false)]) := by
  have hst : stretch none (xs ++ [(t, false)]) = none := by
    rw [stretch_snoc]
    cases stretch none xs <;> rfl
  have hclosed : ∀ s e, (s, e) ∈ closed none (xs ++ [(t, false)]) → ∃ x ∈ xs, e ≤ x.1 := by
    intro s e hmem
    rw [closed_snoc] at hmem
    rcases List.mem_append.mp hmem with hmem | hmem
    · exact h.closed_le s e hmem
    · exact h.closing_le hmem
  constructor
  · intro s e hmem
    obtain ⟨x, hx, hle⟩ := hclosed s e hmem
    exact ⟨x, List.mem_append_left _ hx, hle⟩
  · intro s e hsome
    rw [hst] at hsome
    cases hsome
  · intro t' b hmem
    rw [hst]
    rcases List.mem_append.mp hmem with hmem | hmem
    · rw [h.flags t' b hmem, ← h.closing_iff (t := t) hmem, closed_snoc]
      simp only [List.mem_append, or_and_right, exists_or, reduceCtorEq, false_and, exists_false,
        or_false]
    · obtain ⟨rfl, rfl⟩ := Prod.mk.inj (List.mem_singleton.mp hmem)
      apply iff_of_false Bool.false_ne_true
      rintro (⟨s, e, hspan, -, hle⟩ | ⟨s, e, hsome, -⟩)
      · obtain ⟨x, hx, hex⟩ := hclosed s e hspan
        exact absurd hle (hex.trans_lt (hlt x hx)).not_ge
      · cases hsome

theorem Sampled.snoc (h : Sampled xs) (hlt : ∀ x ∈ xs, x.1 < t) :
    Sampled (xs ++ [(t, b)]) := by
  cases b with
  | true => exact h.snoc_true hlt
  | false => exact h.snoc_false hlt

theorem sampled (h : xs.Pairwise fun x y => x.1 < y.1) : Sampled xs := by
  induction xs using List.reverseRecOn with
  | nil => exact Sampled.nil
  | append_singleton xs x ih =>
    obtain ⟨hxs, -, hlt⟩ := List.pairwise_append.mp h
    exact (ih hxs).snoc fun y hy => hlt y hy x (List.mem_singleton_self x)

/-- A sampled flag is true exactly inside the spans. -/
theorem mem_spans_iff (h : xs.Pairwise fun x y => x.1 < y.1) (hmem : (t, b) ∈ xs)
    (hfar : t ≤ far) : (∃ s e, (s, e) ∈ spans far xs ∧ s ≤ t ∧ t ≤ e) ↔ b = true := by
  rw [(sampled h).flags t b hmem]
  constructor
  · rintro ⟨s, e, hspan, hs, he⟩
    rcases List.mem_append.mp hspan with hspan | hspan
    · exact Or.inl ⟨s, e, hspan, hs, he⟩
    · obtain ⟨⟨s', e'⟩, hopen, heq⟩ := List.mem_map.mp hspan
      obtain ⟨rfl, rfl⟩ := Prod.mk.inj heq
      exact Or.inr ⟨s', e', Option.mem_toList.mp hopen, hs⟩
  · rintro (⟨s, e, hspan, hs, he⟩ | ⟨s, e, hopen, hs⟩)
    · exact ⟨s, e, List.mem_append_left _ hspan, hs, he⟩
    · refine ⟨s, far, List.mem_append_right _ ?_, hs, hfar⟩
      rw [hopen]
      exact List.mem_singleton_self _

theorem eq_far_of_last_le (h : (xs ++ [(t, b)]).Pairwise fun x y => x.1 < y.1)
    (hmem : (s, e) ∈ spans far (xs ++ [(t, b)])) (hle : t ≤ e) : e = far := by
  obtain ⟨hxs, -, hlt⟩ := List.pairwise_append.mp h
  rcases List.mem_append.mp hmem with hmem | hmem
  · obtain ⟨x, hx, hex⟩ : ∃ x ∈ xs, e ≤ x.1 := by
      rw [closed_snoc] at hmem
      rcases List.mem_append.mp hmem with hmem | hmem
      · exact (sampled hxs).closed_le s e hmem
      · cases b with
        | true => cases hst : stretch none xs <;> rw [hst] at hmem <;> cases hmem
        | false => exact (sampled hxs).closing_le hmem
    exact absurd hle (hex.trans_lt (hlt x hx (t, b) (List.mem_singleton_self _))).not_ge
  · obtain ⟨p, -, heq⟩ := List.mem_map.mp hmem
    exact (Prod.mk.inj heq).2.symm

theorem spans_unique (h : xs.Pairwise fun x y => x.1 < y.1) {e' : τ} (hmem : (s, e) ∈ spans far xs)
    (hmem' : (s, e') ∈ spans far xs) : e = e' := by
  have hnodup : ((spans far xs).map Prod.fst).Nodup := by
    have hmap : (spans far xs).map Prod.fst = entries none xs := map_fst_spans none xs
    rw [hmap]
    apply List.Nodup.sublist entries_sublist
    rw [List.nodup_iff_pairwise_ne, List.pairwise_map]
    exact h.imp fun hlt => hlt.ne
  exact (Prod.mk.inj (List.inj_on_of_nodup_map hnodup hmem hmem' rfl)).2

end Order

end QuantTrader.Membership
