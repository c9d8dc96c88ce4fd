import Mathlib.Data.List.Dedup
import Mathlib.Tactic.Linarith
import QuantTrader.Validation.WalkForward

/-! # Labels that reach into the test block

A fold is purged by positions among all dates, a label counts the bars of one
symbol. The two agree for a symbol as long as enough of its bars lie on the
purged dates.
-/

namespace QuantTrader.Validation

variable {σ : Type*} {p p' : Panel σ} {horizon embargo : ℕ} {nSplits minTrain : ℤ}

/-- No label of a training date reads a price of the test start or later. -/
def Panel.NoLeak (p : Panel σ) (horizon : ℕ) (f : Fold) : Prop :=
  ∀ s ∈ p.symbols, ∀ x ∈ shifted horizon (p.series s), x.1.date ∈ f.train →
    ∀ later ∈ x.2, x.1.date < f.testStart ∧ later.date < f.testStart

/-- A symbol with bars on both sides of the purged dates, and with labels at all, has `horizon` bars
on the purged dates. -/
def Panel.Covers (p : Panel σ) (horizon : ℕ) (train : List ℤ) (testStart : ℤ) : Prop :=
  ∀ s ∈ p.symbols, (∃ b ∈ p.series s, b.date ∈ train) →
    (∃ b ∈ p.series s, testStart ≤ b.date) → horizon < (p.series s).length →
      horizon ≤ (p.series s).countP fun b => b.date ∉ train ∧ b.date < testStart

section Antitone

variable {α : Type*} {l : List α} {q q₁ q₂ : α → Bool}

theorem getElem_iff_lt_countP (h : l.Pairwise fun a b => q b = true → q a = true) {i : ℕ}
    (hi : i < l.length) : q l[i] = true ↔ i < l.countP q := by
  induction l generalizing i with
  | nil => simp at hi
  | cons a l ih =>
    obtain ⟨ha, hl⟩ := List.pairwise_cons.mp h
    by_cases hq : q a = true
    · rw [List.countP_cons_of_pos hq]
      cases i with
      | zero => simp [hq]
      | succ i => simpa using ih hl (by simpa using hi)
    · have hnone : ∀ b ∈ l, ¬ q b = true := fun b hb hqb => hq (ha b hb hqb)
      rw [List.countP_cons_of_neg hq, List.countP_eq_zero.mpr hnone]
      cases i with
      | zero => simp [hq]
      | succ i => simpa using hnone _ (List.getElem_mem _)

theorem countP_diff (h₁ : l.Pairwise fun a b => q₁ b = true → q₁ a = true)
    (h₂ : l.Pairwise fun a b => q₂ b = true → q₂ a = true) :
    l.countP (fun a => !q₁ a && q₂ a) = l.countP q₂ - l.countP q₁ := by
  induction l with
  | nil => simp
  | cons a l ih =>
    obtain ⟨ha₁, hl₁⟩ := List.pairwise_cons.mp h₁
    obtain ⟨ha₂, hl₂⟩ := List.pairwise_cons.mp h₂
    have ih := ih hl₁ hl₂
    cases hq₁ : q₁ a with
    | true =>
      cases hq₂ : q₂ a with
      | true => simp [hq₁, hq₂, ih]
      | false =>
        have hnone : l.countP q₂ = 0 :=
          List.countP_eq_zero.mpr fun b hb hqb => by simp [ha₂ b hb hqb] at hq₂
        simp [hq₁, hq₂, ih, hnone]
    | false =>
      have hnone : l.countP q₁ = 0 :=
        List.countP_eq_zero.mpr fun b hb hqb => by simp [ha₁ b hb hqb] at hq₁
      simp [List.countP_cons, hq₁, ih, hnone]

end Antitone

theorem mem_shifted_iff {s : List Bar} {x : Bar × Option Bar} :
    x ∈ shifted horizon s ↔ ∃ (i : ℕ) (h : i < s.length), x = (s[i], s[i + horizon]?) := by
  unfold shifted
  rw [List.mem_mapIdx]
  constructor
  · rintro ⟨i, hi, rfl⟩
    exact ⟨i, hi, rfl⟩
  · rintro ⟨i, hi, rfl⟩
    exact ⟨i, hi, rfl⟩

/-! ## Dates -/

theorem sortedSet_pairwise (dates : List ℤ) : (sortedSet dates).Pairwise (· < ·) := by
  have hle := List.pairwise_insertionSort (· ≤ ·) dates.dedup
  have hne : (sortedSet dates).Nodup :=
    (List.perm_insertionSort (· ≤ ·) dates.dedup).nodup_iff.mpr (List.nodup_dedup dates)
  exact (hle.and hne).imp fun h => lt_of_le_of_ne h.1 h.2

theorem mem_sortedSet {dates : List ℤ} {d : ℤ} : d ∈ sortedSet dates ↔ d ∈ dates := by
  rw [sortedSet, List.mem_insertionSort, List.mem_dedup]

theorem sortedSet_sortedSet (dates : List ℤ) : sortedSet (sortedSet dates) = sortedSet dates := by
  have h := sortedSet_pairwise dates
  have hd : (sortedSet dates).dedup = sortedSet dates :=
    List.dedup_eq_self.mpr (h.imp fun h => h.ne)
  conv_lhs => rw [sortedSet, hd]
  exact (h.imp fun h => h.le).insertionSort_eq

theorem Panel.date_mem_dates {s : σ} {b : Bar} (hs : s ∈ p.symbols) (hb : b ∈ p.series s) :
    b.date ∈ p.dates :=
  mem_sortedSet.mpr (List.mem_flatMap.mpr ⟨s, hs, List.mem_map_of_mem hb⟩)

theorem mem_sliceTo_of_le {dates : List ℤ} (h : dates.Pairwise (· < ·)) {stop d d' : ℤ}
    (hd : d ∈ sliceTo dates stop) (hd' : d' ∈ dates) (hle : d' ≤ d) : d' ∈ sliceTo dates stop := by
  unfold sliceTo at hd ⊢
  generalize (if 0 ≤ stop then stop else dates.length + stop).toNat = n at hd ⊢
  rw [← List.take_append_drop n dates] at h hd'
  rcases List.mem_append.mp hd' with hd' | hd'
  · exact hd'
  · have := (List.pairwise_append.mp h).2.2 d hd d' hd'
    omega

/-! ## Folds -/

/-- For one symbol with `k` training bars, `m` bars before the test start and `n` bars in all. -/
theorem reaches_iff {k m n : ℕ} (hh : 1 ≤ horizon) :
    (∀ i, i < k → i + horizon < n → i + horizon < m) ↔
      (0 < k → m < n → horizon < n → horizon ≤ m - k) := by
  constructor
  · intro h hk hmn hhn
    by_contra hlt
    by_cases hmh : horizon ≤ m
    · have := h (m - horizon) (by omega) (by omega)
      omega
    · have := h 0 hk (by omega)
      omega
  · intro h i hi hin
    by_contra hge
    have := h (by omega) (by omega) (by omega)
    omega

theorem shifted_reads_iff {series : List Bar} {train : List ℤ} {testStart : ℤ}
    (h₁ : series.Pairwise fun a b =>
      decide (b.date ∈ train) = true → decide (a.date ∈ train) = true)
    (hasc : series.Pairwise fun a b => a.date < b.date) :
    (∀ x ∈ shifted horizon series, x.1.date ∈ train →
        ∀ later ∈ x.2, x.1.date < testStart ∧ later.date < testStart) ↔
      ∀ i, i < series.countP (fun b => b.date ∈ train) → i + horizon < series.length →
        i + horizon < series.countP fun b => b.date < testStart := by
  have h₂ : series.Pairwise fun a b =>
      decide (b.date < testStart) = true → decide (a.date < testStart) = true := by
    refine hasc.imp ?_
    intro a b hab hb
    exact decide_eq_true (hab.trans (of_decide_eq_true hb))
  constructor
  · intro h i hi hin
    have hlen : i < series.length := by omega
    have htrain := (getElem_iff_lt_countP h₁ hlen).mpr hi
    have hread := h _ (mem_shifted_iff.mpr ⟨i, hlen, rfl⟩) (of_decide_eq_true htrain)
      series[i + horizon] (List.getElem?_eq_getElem hin)
    exact (getElem_iff_lt_countP h₂ hin).mp (decide_eq_true hread.2)
  · intro h x hx htrain later hlater
    obtain ⟨i, hlen, rfl⟩ := mem_shifted_iff.mp hx
    obtain ⟨hin, rfl⟩ := List.getElem?_eq_some_iff.mp hlater
    have hlt := h i ((getElem_iff_lt_countP h₁ hlen).mp (decide_eq_true htrain)) hin
    have hself := (getElem_iff_lt_countP h₂ hlen).mpr (by omega)
    have hread := (getElem_iff_lt_countP h₂ hin).mpr hlt
    exact ⟨of_decide_eq_true hself, of_decide_eq_true hread⟩

theorem Panel.noLeak_iff_covers {f : Fold} (hh : 1 ≤ horizon)
    (hlow : ∀ d ∈ f.train, ∀ d' ∈ p.dates, d' ≤ d → d' ∈ f.train) :
    p.NoLeak horizon f ↔ p.Covers horizon f.train f.testStart := by
  refine forall₂_congr fun s hs => ?_
  have h₁ : (p.series s).Pairwise fun a b =>
      decide (b.date ∈ f.train) = true → decide (a.date ∈ f.train) = true := by
    refine List.Pairwise.imp_of_mem ?_ (p.ascending s)
    intro a b ha _ hab hb
    exact decide_eq_true
      (hlow _ (of_decide_eq_true hb) _ (p.date_mem_dates hs ha) hab.le)
  have h₂ : (p.series s).Pairwise fun a b =>
      decide (b.date < f.testStart) = true → decide (a.date < f.testStart) = true := by
    refine (p.ascending s).imp ?_
    intro a b hab hb
    exact decide_eq_true (hab.trans (of_decide_eq_true hb))
  have hafter : (p.series s).countP (fun b => b.date < f.testStart) < (p.series s).length ↔
      ∃ b ∈ p.series s, f.testStart ≤ b.date := by
    rw [lt_iff_le_and_ne]
    simp [List.countP_le_length, List.countP_eq_length]
  rw [shifted_reads_iff h₁ (p.ascending s), reaches_iff hh, ← countP_diff h₁ h₂,
    List.countP_pos_iff, hafter]
  simp only [decide_eq_true_eq, decide_not, Bool.decide_and]

theorem mem_purgedWalkforward_iff {dates : List ℤ} {folds : List Fold} {f : Fold}
    (h : purgedWalkforward dates nSplits horizon embargo minTrain = .ok folds) :
    f ∈ folds ↔ (f.testStart :: f.rest) ∈ blocks (sortedSet dates) nSplits minTrain ∧
      minTrain / 2 ≤ cut (sortedSet dates) horizon embargo f.testStart ∧
      f.train = sliceTo (sortedSet dates) (cut (sortedSet dates) horizon embargo f.testStart) := by
  unfold purgedWalkforward at h
  dsimp only at h
  split_ifs at h
  cases h
  rw [List.mem_filterMap]
  constructor
  · rintro ⟨blk, hblk, hf⟩
    cases blk with
    | nil => cases hf
    | cons testStart rest =>
      dsimp only at hf
      split_ifs at hf with hcut
      cases hf
      exact ⟨hblk, not_lt.mp hcut, rfl⟩
  · rintro ⟨hblk, hcut, htrain⟩
    refine ⟨_, hblk, ?_⟩
    dsimp only
    rw [if_neg (not_lt.mpr hcut), ← htrain]

/-- The folds of a panel leak no label exactly when every symbol with bars before and after the
purged dates of a fold has at least `horizon` bars on them. -/
theorem noLeak_iff {folds : List Fold} (hh : 1 ≤ horizon)
    (h : purgedWalkforward p.dates nSplits horizon embargo minTrain = .ok folds) :
    (∀ f ∈ folds, p.NoLeak horizon f) ↔
      ∀ blk ∈ blocks p.dates nSplits minTrain, ∀ testStart ∈ blk.head?,
        minTrain / 2 ≤ cut p.dates horizon embargo testStart →
          p.Covers horizon (sliceTo p.dates (cut p.dates horizon embargo testStart)) testStart := by
  have hmem := fun f => mem_purgedWalkforward_iff (f := f) h
  have hdates : sortedSet p.dates = p.dates := sortedSet_sortedSet _
  rw [hdates] at hmem
  have hlow : ∀ stop, ∀ d ∈ sliceTo p.dates stop, ∀ d' ∈ p.dates, d' ≤ d →
      d' ∈ sliceTo p.dates stop :=
    fun stop d hd d' hd' hle => mem_sliceTo_of_le (sortedSet_pairwise _) hd hd' hle
  constructor
  · rintro hf (_ | ⟨testStart, rest⟩) hblk _ ⟨⟩ hcut
    have hno := hf ⟨sliceTo p.dates (cut p.dates horizon embargo testStart), testStart, rest⟩
      ((hmem _).mpr ⟨hblk, hcut, rfl⟩)
    exact (p.noLeak_iff_covers hh (hlow _)).mp hno
  · rintro hc f hf
    obtain ⟨hblk, hcut, htrain⟩ := (hmem f).mp hf
    have hcovers := hc _ hblk _ rfl hcut
    rw [← htrain] at hcovers
    refine (p.noLeak_iff_covers hh ?_).mpr hcovers
    rw [htrain]
    exact hlow _

/-! ## What a label depends on -/

theorem find?_rel {α β : Type*} {R : α → β → Prop} {l : List α} {l' : List β} (q : α → Bool)
    (q' : β → Bool) (h : List.Forall₂ R l l') (hq : ∀ a b, R a b → q a = q' b) :
    Option.Rel R (l.find? q) (l'.find? q') := by
  induction h with
  | nil => exact .none
  | @cons a b l l' hab _ ih =>
    rw [List.find?_cons, List.find?_cons, ← hq a b hab]
    cases q a with
    | true => exact .some hab
    | false => exact ih

/-- The same bar, with the same price if it lies before `t`. -/
def Same (t : ℤ) (b b' : Bar) : Prop := b.date = b'.date ∧ (b.date < t → b.close = b'.close)

theorem shifted_rel (horizon : ℕ) {series series' : List Bar} {t : ℤ}
    (h : List.Forall₂ (Same t) series series') :
    List.Forall₂ (fun x x' => Same t x.1 x'.1 ∧ Option.Rel (Same t) x.2 x'.2)
      (shifted horizon series) (shifted horizon series') := by
  obtain ⟨hlen, hget⟩ := List.forall₂_iff_get.mp h
  refine List.forall₂_iff_get.mpr ⟨by simp [shifted, hlen], ?_⟩
  intro i hi hi'
  simp only [shifted, List.length_mapIdx] at hi hi'
  simp only [shifted, List.get_eq_getElem, List.getElem_mapIdx]
  refine ⟨hget i hi hi', ?_⟩
  by_cases hin : i + horizon < series.length
  · rw [List.getElem?_eq_getElem hin, List.getElem?_eq_getElem (hlen ▸ hin)]
    exact .some (hget _ hin (hlen ▸ hin))
  · rw [List.getElem?_eq_none (by omega), List.getElem?_eq_none (by omega)]
    exact .none

/-- The labels of a fold without leaks do not change with the prices from its test start on. -/
theorem Panel.NoLeak.fwdRet_eq {f : Fold} {s : σ} {date : ℤ} (h : p.NoLeak horizon f)
    (hp : List.Forall₂ (Same f.testStart) (p.series s) (p'.series s)) (hs : s ∈ p.symbols)
    (hd : date ∈ f.train) : p.fwdRet horizon s date = p'.fwdRet horizon s date := by
  have hrel := find?_rel (fun x => decide (x.1.date = date)) (fun x => decide (x.1.date = date))
    (shifted_rel horizon hp) fun x x' hx => by rw [hx.1.1]
  unfold fwdRet
  cases hfind : (shifted horizon (p.series s)).find? fun x => x.1.date = date with
  | none =>
    rw [hfind] at hrel
    cases hfind' : (shifted horizon (p'.series s)).find? fun x => x.1.date = date with
    | none => rfl
    | some x' =>
      rw [hfind'] at hrel
      cases hrel
  | some x =>
    have hdate : x.1.date = date := of_decide_eq_true (List.find?_some hfind :)
    have hread := h s hs x (List.mem_of_find?_eq_some hfind) (hdate ▸ hd)
    rw [hfind] at hrel
    cases hfind' : (shifted horizon (p'.series s)).find? fun x => x.1.date = date with
    | none =>
      rw [hfind'] at hrel
      cases hrel
    | some x' =>
      rw [hfind'] at hrel
      obtain ⟨b, later⟩ := x
      obtain ⟨b', later'⟩ := x'
      obtain ⟨⟨-, hb⟩, hlater⟩ :
          Same f.testStart b b' ∧ Option.Rel (Same f.testStart) later later' := by
        cases hrel with
        | some hx => exact hx
      cases hlater with
      | none => rfl
      | @some l l' hl =>
        obtain ⟨hbt, hlt⟩ := hread l rfl
        simp only [Option.bind_some, Option.map_some, hb hbt, hl.2 hlt]

section Demo

instance {f : Fold} : Decidable (p.NoLeak horizon f) := by
  unfold Panel.NoLeak
  infer_instance

instance {train : List ℤ} {testStart : ℤ} : Decidable (p.Covers horizon train testStart) := by
  unfold Panel.Covers
  infer_instance

/-- Bars on ten days; symbol `false` misses some of them. -/
def demoSeries (missing : List ℤ) (s : Bool) : List Bar :=
  ([0, 1, 2, 3, 4, 5, 6, 7, 8, 9].filter fun d => s = true ∨ d ∉ missing).map fun d => ⟨d, 100 + d⟩

theorem demoSeries_ascending (missing : List ℤ) (s : Bool) :
    (demoSeries missing s).Pairwise fun a b => a.date < b.date := by
  have hdays : ([0, 1, 2, 3, 4, 5, 6, 7, 8, 9] : List ℤ).Pairwise (· < ·) := by decide
  exact List.pairwise_map.mpr (hdays.filter _)

def demoPanel (missing : List ℤ) : Panel Bool :=
  ⟨[true, false], demoSeries missing, demoSeries_ascending missing⟩

/-- With a horizon of two, an embargo of one and the test block from day 6 on, the days 3 to 5 are
purged. -/
def demoFold : Fold := ⟨[0, 1, 2], 6, [7, 8, 9]⟩

theorem noLeak_iff_demo : (demoPanel [4]).NoLeak 2 demoFold := by
  have hfolds : purgedWalkforward (demoPanel [4]).dates 1 2 1 6 = .ok [demoFold] := by
    decide +kernel
  exact (noLeak_iff (by decide) hfolds).mpr (by decide +kernel) demoFold (List.mem_singleton_self _)

/-- A symbol that misses two of the purged days: its label of day 2 is read from day 6. -/
theorem missing_days_leak :
    purgedWalkforward (demoPanel [3, 4]).dates 1 2 1 6 = .ok [demoFold] ∧
    ¬ (demoPanel [3, 4]).NoLeak 2 demoFold ∧
    ¬ ∀ (p : Panel Bool) (horizon embargo : ℕ) (nSplits minTrain : ℤ) (folds : List Fold),
      1 ≤ horizon → purgedWalkforward p.dates nSplits horizon embargo minTrain = .ok folds →
        ∀ f ∈ folds, p.NoLeak horizon f := by
  have hfolds : purgedWalkforward (demoPanel [3, 4]).dates 1 2 1 6 = .ok [demoFold] := by
    decide +kernel
  have hleak : ¬ (demoPanel [3, 4]).NoLeak 2 demoFold := by decide +kernel
  refine ⟨hfolds, hleak, ?_⟩
  intro h
  exact hleak (h _ 2 1 1 6 _ (by decide) hfolds demoFold (List.mem_singleton_self _))

end Demo

end QuantTrader.Validation
