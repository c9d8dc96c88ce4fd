import QuantTrader.Engine.Sent

/-! # Handlers that return

An order of finite numbers is executed at every price at which its amount stays
below the range of the fee. A handler returns when every order it fills is
executed and every limit it compares is a number.
-/

namespace QuantTrader.Engine

open Postgres Ledger Transition

/-- The amounts whose fee, at `FEE_RATE`, has at most 28 digits at four decimals. -/
def amountBound : ℚ := 2 * 10 ^ 27 - 1 / 2

variable {uuid5 : String → String} {c : Context} {st st' : State} {o : Order} {os : List Order}
  {m : Msg} {ex : Execution} {ε p q x : ℚ}

/-! ## Amounts and fees -/

theorem finish_le {y : ℚ} (h0 : 0 ≤ x) (hb : x < 10 ^ 99)
    (hle : Nearest.halfEven.toDigits 28 x ≤ y) :
    ∃ v, Context.default.finish x = .ok v ∧ 0 ≤ v ∧ v ≤ y := by
  have habs : |x| < 10 ^ 100 := by
    rw [abs_of_nonneg h0]
    linarith
  obtain ⟨v, hv⟩ := Context.accurate_default.total habs
  have hx := hv
  simp only [Context.finish, Context.default] at hx
  split_ifs at hx
  obtain rfl := Except.ok.inj hx
  exact ⟨_, hv, Nearest.halfEven.toDigits_nonneg h0, hle⟩

theorem exists_amount (h0 : 0 ≤ x) (h : x < amountBound) :
    ∃ v, Context.default.finish x = .ok v ∧ 0 ≤ v ∧ v ≤ 2 * 10 ^ 27 - 1 := by
  unfold amountBound at h
  have hg : OnGrid ((10 : ℚ) ^ (0 : ℤ)) (2 * 10 ^ 27 - 1) := ⟨2 * 10 ^ 27 - 1, by norm_num⟩
  have habs : |x| < (10 : ℚ) ^ ((0 : ℤ) + (28 : ℕ)) := by
    rw [abs_of_nonneg h0]
    norm_num
    linarith
  have hle := Nearest.halfEven.toDigits_le_of_lt hg habs (by norm_num) (by norm_num; linarith)
  exact finish_le h0 (by linarith) hle

theorem exists_rated {v : ℚ} (h0 : 0 ≤ v) (h : v ≤ 2 * 10 ^ 27 - 1) :
    ∃ r, Context.default.finish (v * feeRate) = .ok r ∧ 0 ≤ r ∧ r ≤ 10 ^ 24 - 5 / 10 ^ 4 := by
  have hr : v * feeRate ≤ 10 ^ 24 - 5 / 10 ^ 4 := by
    unfold feeRate
    linarith
  have hr0 : 0 ≤ v * feeRate := mul_nonneg h0 (by norm_num [feeRate])
  have hg : OnGrid ((10 : ℚ) ^ (-4 : ℤ)) (10 ^ 24 - 5 / 10 ^ 4) := ⟨10 ^ 28 - 5, by norm_num⟩
  have habs : |v * feeRate| < (10 : ℚ) ^ ((-4 : ℤ) + (28 : ℕ)) := by
    rw [abs_of_nonneg hr0]
    norm_num
    linarith
  exact finish_le hr0 (by linarith) (Nearest.halfEven.toDigits_le hg habs hr)

theorem exists_fee {r : ℚ} (h0 : 0 ≤ r) (h : r ≤ 10 ^ 24 - 5 / 10 ^ 4) :
    ∃ fee, Context.default.quantizeFin .halfEven 4 r = .ok fee := by
  have hu : (0 : ℚ) < ((10 : ℚ) ^ 4)⁻¹ := by positivity
  have hlow : (0 : ℤ) ≤ Nearest.halfEven.toInt (r / ((10 : ℚ) ^ 4)⁻¹) := by
    have hm := Nearest.halfEven.toInt_mono (div_nonneg h0 hu.le)
    rwa [← Int.cast_zero, Nearest.toInt_intCast] at hm
  have hhigh : Nearest.halfEven.toInt (r / ((10 : ℚ) ^ 4)⁻¹) ≤ 10 ^ 28 - 5 := by
    have hle : r / ((10 : ℚ) ^ 4)⁻¹ ≤ ((10 ^ 28 - 5 : ℤ) : ℚ) := by
      rw [div_le_iff₀ hu]
      norm_num
      linarith
    have hm := Nearest.halfEven.toInt_mono hle
    rwa [Nearest.toInt_intCast] at hm
  have hfits := Context.accurate_default.fits
    (n := Nearest.halfEven.toInt (r / ((10 : ℚ) ^ 4)⁻¹)) (by omega)
  exact ⟨_, by rw [Context.quantizeFin, if_pos hfits]⟩

/-- An order of a finite quantity is executed while its amount has a fee. -/
theorem exists_execute (hq : o.quantity = .fin q) (h0 : 0 ≤ p * q) (h : p * q < amountBound) :
    ∃ ex, execute Context.default uuid5 o (.fin p) = .ok ex := by
  obtain ⟨v, hv, hv0, hv'⟩ := exists_amount h0 h
  obtain ⟨r, hr, hr0, hr'⟩ := exists_rated hv0 hv'
  obtain ⟨fee, hf⟩ := exists_fee hr0 hr'
  refine ⟨_, execute_ok_iff.mpr ⟨.fin v, .fin r, .fin fee, ?_, ?_, ?_, rfl⟩⟩
  · rw [hq]
    exact map_ok_iff.mpr ⟨v, hv, rfl⟩
  · exact map_ok_iff.mpr ⟨r, hr, rfl⟩
  · exact map_ok_iff.mpr ⟨fee, hf, rfl⟩

/-- A fee is part of its amount: it is zero, or the amount is not small. -/
theorem fee_le_amount {v r fee : ℚ} (hc : c.Accurate ε) (hv : 0 ≤ v)
    (hr : c.finish (v * feeRate) = .ok r) (hf : c.quantizeFin .halfEven 4 r = .ok fee) :
    0 ≤ fee ∧ fee ≤ v := by
  have hv0 : 0 ≤ v * feeRate := mul_nonneg hv (by norm_num [feeRate])
  have hr0 := hc.nonneg_of_finish hr hv0
  have hru := (abs_le.mp (hc.error_le hr)).2
  rw [abs_of_nonneg hv0] at hru
  unfold Context.quantizeFin at hf
  split_ifs at hf
  obtain rfl := Except.ok.inj hf
  have hu : (0 : ℚ) < ((10 : ℚ) ^ 4)⁻¹ := by positivity
  have hfee0 := Nearest.halfEven.toGrid_nonneg hu hr0
  have herr := (abs_le.mp (Nearest.halfEven.toGrid_error hu r)).2
  refine ⟨hfee0, ?_⟩
  rcases le_or_gt ((10 : ℚ) ^ 4)⁻¹ (Nearest.halfEven.toGrid ((10 : ℚ) ^ 4)⁻¹ r) with hge | hlt
  · unfold feeRate at hru
    norm_num at hge herr hru ⊢
    linarith
  · have hz := OnGrid.le_of_lt_add hu (Nearest.halfEven.onGrid_toGrid _ r) (.zero _) (by linarith)
    linarith

/-! ## Handlers -/

theorem exists_executeAll (h : ∀ o ∈ os, ∃ ex, execute c uuid5 o (.fin p) = .ok ex) :
    ∃ exs, executeAll c uuid5 (.fin p) os = .ok exs := by
  induction os with
  | nil => exact ⟨[], rfl⟩
  | cons o os ih =>
    obtain ⟨ex, hex⟩ := h o List.mem_cons_self
    obtain ⟨exs, hexs⟩ := ih fun o' ho' => h o' (List.mem_cons_of_mem _ ho')
    simp only [executeAll, bind_ok_iff]
    exact ⟨_, ex, hex, exs, hexs, rfl⟩

theorem exists_limitFillPrice (h : o.price = some (.fin x)) :
    ∃ fill, limitFillPrice o (.fin p) = .ok fill := by
  have hmeets : ∃ met, meets o.side (.fin p) (.fin x) = .ok met := by
    cases o.side with
    | buy => exact ⟨_, Decimal.le_fin p x⟩
    | sell => exact ⟨_, Decimal.le_fin x p⟩
  obtain ⟨met, hm⟩ := hmeets
  exact ⟨_, limitFillPrice_ok_iff.mpr ⟨_, met, h, hm, rfl⟩⟩

theorem exists_sweep (hl : ∀ o ∈ os, ∃ x, o.price = some (.fin x))
    (h : ∀ o ∈ os, NoWorse o (.fin p) → ∃ ex, execute c uuid5 o (.fin p) = .ok ex) :
    ∃ r, sweep c uuid5 (.fin p) os = .ok r := by
  induction os with
  | nil => exact ⟨_, rfl⟩
  | cons o os ih =>
    obtain ⟨x, hx⟩ := hl o List.mem_cons_self
    obtain ⟨⟨exs, waiting⟩, hs⟩ := ih (fun o' ho' => hl o' (List.mem_cons_of_mem _ ho'))
      fun o' ho' => h o' (List.mem_cons_of_mem _ ho')
    obtain ⟨fill, hf⟩ := exists_limitFillPrice (p := p) hx
    simp only [sweep, bind_ok_iff]
    cases fill with
    | none => exact ⟨_, none, hf, bind_ok_iff.mpr ⟨_, hs, rfl⟩⟩
    | some d =>
      obtain ⟨rfl, hno⟩ := limitFillPrice_some_iff.mp hf
      obtain ⟨ex, hex⟩ := h o List.mem_cons_self hno
      exact ⟨_, _, hf, bind_ok_iff.mpr ⟨ex, hex, bind_ok_iff.mpr ⟨_, hs, rfl⟩⟩⟩

def FinPrices (st : State) (m : Msg) : Prop :=
  (∀ symbol d, m = .tick symbol d → ∃ p, d = .fin p) ∧
    ∀ s d, st.latestPrice s = some d → ∃ p, d = .fin p

theorem exists_onOrder (hp : ∀ s d, st.latestPrice s = some d → ∃ p, d = .fin p)
    (hl : o.type = .limit → ∃ x, o.price = some (.fin x))
    (h : ∀ p, Executes st (.order o) o (.fin p) → ∃ ex, execute c uuid5 o (.fin p) = .ok ex) :
    ∃ st', onOrder c uuid5 st o = .ok st' := by
  unfold onOrder
  cases ht : o.type with
  | market =>
    cases hlast : st.latestPrice o.symbol with
    | none => exact ⟨_, rfl⟩
    | some d =>
      obtain ⟨p, rfl⟩ := hp _ _ hlast
      obtain ⟨ex, hex⟩ := h p ⟨rfl, hlast, Or.inl ht⟩
      exact ⟨_, produce_ok_iff.mpr ⟨ex, hex, rfl⟩⟩
  | limit =>
    obtain ⟨x, hx⟩ := hl ht
    simp only [limitFill, bind_ok_iff]
    cases hlast : st.latestPrice o.symbol with
    | none => exact ⟨_, none, rfl, rfl⟩
    | some d =>
      obtain ⟨p, rfl⟩ := hp _ _ hlast
      obtain ⟨fill, hf⟩ := exists_limitFillPrice (p := p) hx
      cases fill with
      | none => exact ⟨_, none, hf, rfl⟩
      | some d =>
        obtain ⟨rfl, hno⟩ := limitFillPrice_some_iff.mp hf
        obtain ⟨ex, hex⟩ := h p ⟨rfl, hlast, Or.inr ⟨ht, hno⟩⟩
        exact ⟨_, _, hf, produce_ok_iff.mpr ⟨ex, hex, rfl⟩⟩
  | other n => exact ⟨_, rfl⟩

/-- A handler returns when it executes every order it fills and compares numbers only. -/
theorem exists_step (hp : FinPrices st m)
    (hl : ∀ o, ((∃ s, o ∈ st.limitOrders s) ∨ m = .order o ∧ o.type = .limit) →
      ∃ x, o.price = some (.fin x))
    (h : ∀ o p, Executes st m o (.fin p) → ∃ ex, execute c uuid5 o (.fin p) = .ok ex) :
    ∃ st', step c uuid5 st m = .ok st' := by
  cases m with
  | tick symbol price =>
    obtain ⟨p, rfl⟩ := hp.1 symbol price rfl
    obtain ⟨exs, he⟩ := exists_executeAll fun o ho => h o p ⟨rfl, Or.inl ho⟩
    obtain ⟨⟨exs', waiting⟩, hs⟩ := exists_sweep (fun o ho => hl o (Or.inl ⟨symbol, ho⟩))
      fun o ho hno => h o p ⟨rfl, Or.inr ⟨ho, hno⟩⟩
    exact ⟨_, onTick_ok_iff.mpr ⟨exs, exs', waiting, he, hs, rfl⟩⟩
  | order o => exact exists_onOrder hp.2 (fun ht => hl o (Or.inr ⟨rfl, ht⟩)) fun p => h o p

theorem latestPrice_step {s : String} {d : Decimal} (hs : step c uuid5 st m = .ok st')
    (h : st'.latestPrice s = some d) : st.latestPrice s = some d ∨ m = .tick s d := by
  cases m with
  | tick symbol price =>
    obtain ⟨_, _, _, -, -, rfl⟩ := onTick_ok_iff.mp hs
    rcases eq_or_ne s symbol with rfl | hne
    · simp only [Function.update_self, Option.some.injEq] at h
      exact Or.inr (by rw [h])
    · simp only [Function.update_of_ne hne] at h
      exact Or.inl h
  | order o =>
    rcases onOrder_cases hs with ⟨_, -, rfl⟩ | ⟨-, -, rfl⟩ | ⟨-, -, rfl⟩ | ⟨_, _, -, -, -, rfl⟩
    all_goals exact Or.inl h

theorem latestPrice_start (rows : List (String × OrderRow)) (s : String) :
    (start rows).latestPrice s = none := by
  induction rows using List.reverseRecOn with
  | nil => rfl
  | append_singleton rows r ih =>
    rw [start_snoc]
    unfold reload
    split_ifs
    · exact ih
    · exact ih

end QuantTrader.Engine
