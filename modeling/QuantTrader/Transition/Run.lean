import Mathlib.Data.List.Basic
import Mathlib.Data.List.Infix
import Mathlib.Order.Basic

/-! # Fallible steps and runs

Inversion of successful `Except` computations, two computations side by side or
agreeing on what they return, induction over the prefixes of a run, the first occurrences of each key in a
list of inputs, and lists without adjacent repetitions.
-/

namespace QuantTrader.Transition

universe u v

variable {ε : Type u} {α β : Type v} {x : Except ε α} {f : α → Except ε β}

theorem bind_ok_iff {b : β} : (x >>= f) = .ok b ↔ ∃ a, x = .ok a ∧ f a = .ok b := by
  cases x with
  | error e => simp [bind, Except.bind]
  | ok a => simp [bind, Except.bind]

theorem bind_error_iff {e : ε} :
    (x >>= f) = .error e ↔ x = .error e ∨ ∃ a, x = .ok a ∧ f a = .error e := by
  cases x with
  | error e' => simp [bind, Except.bind]
  | ok a => simp [bind, Except.bind]

theorem exists_ok_of_isOk (h : x.isOk = true) : ∃ a, x = .ok a := by
  cases x with
  | error e => cases h
  | ok a => exact ⟨a, rfl⟩

theorem exists_error_of_isOk (h : x.isOk = false) : ∃ e, x = .error e := by
  cases x with
  | error e => exact ⟨e, rfl⟩
  | ok a => cases h

theorem map_ok_iff {g : α → β} {b : β} : g <$> x = .ok b ↔ ∃ a, x = .ok a ∧ g a = b := by
  cases x with
  | error e => simp [Functor.map, Except.map]
  | ok a => simp [Functor.map, Except.map]

theorem toOption_eq_some_iff {a : α} : x.toOption = some a ↔ x = .ok a := by
  cases x with
  | error e => simp [Except.toOption]
  | ok b => simp [Except.toOption]

theorem exists_of_mem_mapM {ι : Type v} {g : ι → Except ε α} {l : List ι} {as : List α}
    (h : l.mapM g = .ok as) {a : α} (ha : a ∈ as) : ∃ i ∈ l, g i = .ok a := by
  induction l generalizing as with
  | nil =>
    obtain rfl := Except.ok.inj h
    cases ha
  | cons i l ih =>
    rw [List.mapM_cons] at h
    obtain ⟨b, hb, h⟩ := bind_ok_iff.mp h
    obtain ⟨bs, hbs, h⟩ := bind_ok_iff.mp h
    obtain rfl := Except.ok.inj h
    rcases List.mem_cons.mp ha with rfl | ha
    · exact ⟨i, List.mem_cons_self, hb⟩
    · exact (ih hbs ha).imp fun j hj => ⟨List.mem_cons_of_mem _ hj.1, hj.2⟩

theorem exists_mapM_ok {ι : Type v} {g : ι → Except ε α} {l : List ι}
    (h : ∀ i ∈ l, ∃ a, g i = .ok a) :
    ∃ as, l.mapM g = .ok as ∧ ∀ i ∈ l, ∃ a ∈ as, g i = .ok a := by
  induction l with
  | nil => exact ⟨[], rfl, by simp⟩
  | cons i l ih =>
    obtain ⟨a, ha⟩ := h i List.mem_cons_self
    obtain ⟨as, has, hall⟩ := ih fun j hj => h j (List.mem_cons_of_mem _ hj)
    refine ⟨a :: as, by rw [List.mapM_cons, ha, has]; rfl, ?_⟩
    intro j hj
    rcases List.mem_cons.mp hj with rfl | hj
    · exact ⟨a, List.mem_cons_self, ha⟩
    · exact (hall j hj).imp fun b hb => ⟨List.mem_cons_of_mem _ hb.1, hb.2⟩

section Paired

variable {α' β' : Type v} {R : α → α' → Prop} {Q : β → β' → Prop}

/-- Both computations fail in the same way, or both succeed with related results. -/
inductive Paired (R : α → α' → Prop) : Except ε α → Except ε α' → Prop
  | error (e : ε) : Paired R (.error e) (.error e)
  | ok {a : α} {a' : α'} : R a a' → Paired R (.ok a) (.ok a')

namespace Paired

theorem refl (x : Except ε α) : Paired Eq x x := by
  cases x with
  | error e => exact .error e
  | ok a => exact .ok rfl

theorem imp {R' : α → α' → Prop} {x : Except ε α} {x' : Except ε α'} (h : Paired R x x')
    (hR : ∀ a a', R a a' → R' a a') : Paired R' x x' := by
  cases h with
  | error e => exact .error e
  | ok h => exact .ok (hR _ _ h)

/-- The rest of a computation may use how its beginning came out. -/
theorem bind_of_eq {x : Except ε α} {x' : Except ε α'} {f : α → Except ε β} {f' : α' → Except ε β'}
    (h : Paired R x x')
    (hf : ∀ a a', x = .ok a → x' = .ok a' → R a a' → Paired Q (f a) (f' a')) :
    Paired Q (x >>= f) (x' >>= f') := by
  cases h with
  | error e => exact .error e
  | ok h => exact hf _ _ rfl rfl h

theorem bind {x : Except ε α} {x' : Except ε α'} {f : α → Except ε β} {f' : α' → Except ε β'}
    (h : Paired R x x') (hf : ∀ a a', R a a' → Paired Q (f a) (f' a')) :
    Paired Q (x >>= f) (x' >>= f') :=
  h.bind_of_eq fun a a' _ _ => hf a a'

theorem bind_same {x : Except ε α} {f : α → Except ε β} {f' : α → Except ε β'}
    (hf : ∀ a, Paired Q (f a) (f' a)) : Paired Q (x >>= f) (x >>= f') :=
  (refl x).bind fun a _ h => h ▸ hf a

theorem toOption_map_eq {γ : Type*} {x : Except ε α} {x' : Except ε α'} {f : α → γ} {f' : α' → γ}
    (h : Paired R x x') (hf : ∀ a a', R a a' → f a = f' a') :
    x.toOption.map f = x'.toOption.map f' := by
  cases h with
  | error e => rfl
  | ok h => exact congrArg some (hf _ _ h)

theorem foldlM {ι : Type*} {l : List ι} {f : α → ι → Except ε α} {f' : α' → ι → Except ε α'}
    (hf : ∀ i ∈ l, ∀ a a', R a a' → Paired R (f a i) (f' a' i)) {a : α} {a' : α'} (h : R a a') :
    Paired R (l.foldlM f a) (l.foldlM f' a') := by
  induction l generalizing a a' with
  | nil => exact .ok h
  | cons i l ih =>
    rw [List.foldlM_cons, List.foldlM_cons]
    apply (hf i List.mem_cons_self a a' h).bind
    intro b b' hb
    exact ih (fun j hj => hf j (List.mem_cons_of_mem _ hj)) hb

end Paired

end Paired

section Agree

/-- The computations return the same whenever both return. -/
def Agree (x y : Except ε α) : Prop := ∀ a b, x = .ok a → y = .ok b → a = b

namespace Agree

theorem of_eq {x y : Except ε α} (h : x = y) : Agree x y := by
  rintro a b hx hy
  exact Except.ok.inj (hx.symm.trans (h.trans hy))

theorem refl (x : Except ε α) : Agree x x := of_eq rfl

theorem bind {x y : Except ε α} {f g : α → Except ε β} (h : Agree x y)
    (hf : ∀ a, Agree (f a) (g a)) : Agree (x >>= f) (y >>= g) := by
  intro b b' hx hy
  obtain ⟨a, ha, hb⟩ := bind_ok_iff.mp hx
  obtain ⟨a', ha', hb'⟩ := bind_ok_iff.mp hy
  obtain rfl := h a a' ha ha'
  exact hf a b b' hb hb'

theorem foldlM {ι : Type*} {l : List ι} {f g : α → ι → Except ε α}
    (h : ∀ i ∈ l, ∀ a, Agree (f a i) (g a i)) (a : α) : Agree (l.foldlM f a) (l.foldlM g a) := by
  induction l generalizing a with
  | nil => exact refl _
  | cons i l ih =>
    rw [List.foldlM_cons, List.foldlM_cons]
    apply (h i List.mem_cons_self a).bind
    intro b
    exact ih (fun j hj => h j (List.mem_cons_of_mem _ hj)) b

end Agree

end Agree

section Prefixes

variable {ι κ σ : Type*}

/-- A property of the empty run, kept by each further input of `l`, holds of every prefix of `l`. -/
theorem prefix_induction {l : List ι} {P : List ι → Prop} (nil : P [])
    (snoc : ∀ pre a, pre ++ [a] <+: l → P pre → P (pre ++ [a])) :
    ∀ pre, pre <+: l → P pre := by
  intro pre
  induction pre using List.reverseRecOn with
  | nil => exact fun _ => nil
  | append_singleton pre a ih =>
    intro h
    exact snoc pre a h (ih ((List.prefix_append pre [a]).trans h))

theorem mem_of_snoc {l pre : List ι} {a : ι} (h : pre ++ [a] <+: l) : a ∈ l :=
  h.subset (by simp)

theorem exists_first {P : ι → Prop} {l : List ι} (h : ∃ a ∈ l, P a) :
    ∃ pre a post, l = pre ++ a :: post ∧ P a ∧ ∀ b ∈ pre, ¬ P b := by
  classical
  induction l with
  | nil =>
    obtain ⟨a, ha, -⟩ := h
    cases ha
  | cons b l ih =>
    by_cases hb : P b
    · exact ⟨[], b, l, rfl, hb, nofun⟩
    · obtain ⟨a, ha, hPa⟩ := h
      rcases List.mem_cons.mp ha with rfl | ha
      · exact absurd hPa hb
      · obtain ⟨pre, a, post, rfl, hP, hno⟩ := ih ⟨a, ha, hPa⟩
        refine ⟨b :: pre, a, post, rfl, hP, ?_⟩
        intro c hc
        rcases List.mem_cons.mp hc with rfl | hc
        · exact hb
        · exact hno c hc

/-- The first element of every key, in order. -/
def firstsBy [DecidableEq κ] (key : ι → κ) : List ι → List ι
  | [] => []
  | a :: l => a :: (firstsBy key l).filter fun b => key b ≠ key a

theorem firstsBy_snoc [DecidableEq κ] (key : ι → κ) (l : List ι) (a : ι) :
    firstsBy key (l ++ [a]) =
      if ∃ b ∈ l, key b = key a then firstsBy key l else firstsBy key l ++ [a] := by
  induction l with
  | nil => simp [firstsBy]
  | cons b l ih =>
    rw [List.cons_append, firstsBy, ih, firstsBy]
    by_cases hl : ∃ b ∈ l, key b = key a
    · simp only [hl, if_true, List.exists_mem_cons_iff, or_true]
    · rw [if_neg hl]
      by_cases hb : key b = key a
      · rw [if_pos ⟨b, List.mem_cons_self, hb⟩]
        simp [hb]
      · rw [if_neg (by rw [List.exists_mem_cons_iff]; exact not_or.mpr ⟨hb, hl⟩)]
        simp [Ne.symm hb]

end Prefixes

section Repetitions

variable {α : Type*}

/-- The first list is the second one without its adjacent repetitions. -/
inductive Collapses : List α → List α → Prop
  | nil : Collapses [] []
  | again {l l' : List α} {b : α} : Collapses l l' → l.getLast? = some b → Collapses l (l' ++ [b])
  | new {l l' : List α} {b : α} : Collapses l l' → l.getLast? ≠ some b →
      Collapses (l ++ [b]) (l' ++ [b])

namespace Collapses

variable {l l' : List α}

theorem getLast?_eq (h : Collapses l l') : l.getLast? = l'.getLast? := by
  induction h with
  | nil => rfl
  | again _ hb _ => rw [hb, List.getLast?_concat]
  | new _ _ _ => rw [List.getLast?_concat, List.getLast?_concat]

theorem mem_iff (h : Collapses l l') {a : α} : a ∈ l ↔ a ∈ l' := by
  induction h with
  | nil => rfl
  | again _ hb ih =>
    rw [ih, List.mem_append, List.mem_singleton]
    constructor
    · exact Or.inl
    · rintro (ha | rfl)
      · exact ha
      · exact ih.mp (List.mem_of_getLast? hb)
  | new _ _ ih => rw [List.mem_append, List.mem_append, ih]

/-- Without its adjacent repetitions a list increases strictly exactly when it never decreases. -/
theorem pairwise_lt_iff [PartialOrder α] (h : Collapses l l') :
    l.Pairwise (· < ·) ↔ l'.Pairwise (· ≤ ·) := by
  induction h with
  | nil => simp
  | @again l l' b h hb ih =>
    rw [ih, List.pairwise_append]
    constructor
    · intro hp
      refine ⟨hp, List.pairwise_singleton _ _, ?_⟩
      rintro a ha b' hb'
      obtain rfl : b' = b := List.mem_singleton.mp hb'
      obtain ⟨pre, rfl⟩ := List.getLast?_eq_some_iff.mp (h.getLast?_eq ▸ hb)
      rcases List.mem_append.mp ha with ha | ha
      · exact (List.pairwise_append.mp hp).2.2 a ha b' (List.mem_singleton_self b')
      · exact (List.mem_singleton.mp ha).le
    · exact fun hp => hp.1
  | @new l l' b h hb ih =>
    rw [List.pairwise_append, List.pairwise_append, ih]
    constructor
    · rintro ⟨hp, -, hlt⟩
      exact ⟨hp, List.pairwise_singleton _ _, fun a ha c hc => (hlt a (h.mem_iff.mpr ha) c hc).le⟩
    · rintro ⟨hp, -, hle⟩
      refine ⟨hp, List.pairwise_singleton _ _, ?_⟩
      rintro a ha b' hb'
      obtain rfl : b' = b := List.mem_singleton.mp hb'
      -- equality with `b` would make `b` the last element already
      refine lt_of_le_of_ne (hle a (h.mem_iff.mp ha) b' hb') ?_
      rintro rfl
      apply hb
      obtain ⟨c, hc⟩ : ∃ c, l'.getLast? = some c :=
        Option.isSome_iff_exists.mp (by simp [List.ne_nil_of_mem (h.mem_iff.mp ha)])
      obtain ⟨pre, rfl⟩ := List.getLast?_eq_some_iff.mp hc
      have hca : c ≤ a := hle c (by simp) a (List.mem_singleton_self a)
      have hac : a ≤ c := by
        rcases List.mem_append.mp (h.mem_iff.mp ha) with ha' | ha'
        · exact (List.pairwise_append.mp hp).2.2 a ha' c (List.mem_singleton_self c)
        · exact (List.mem_singleton.mp ha').le
      rw [h.getLast?_eq, hc, le_antisymm hca hac]

end Collapses

end Repetitions

end QuantTrader.Transition
