import QuantTrader.Engine.Matching

/-! # What a handler sends

A handler that raises has already handed the executions before the failure to
the producer, and the engine flushes them on its way out. Every message sent is
the execution of an order the engine holds or has just received.
-/

namespace QuantTrader.Engine

open Ledger Transition

variable (c : Context) (uuid5 : String → String)

/-- The executions of waiting market orders, up to the first failure. -/
def sentAll (price : Decimal) : List Order → List Execution
  | [] => []
  | o :: os =>
    match execute c uuid5 o price with
    | .ok ex => ex :: sentAll price os
    | .error _ => []

/-- The executions of resting orders, up to the first failure. -/
def sentSweep (price : Decimal) : List Order → List Execution
  | [] => []
  | o :: os =>
    match limitFillPrice o price with
    | .error _ => []
    | .ok none => sentSweep price os
    | .ok (some fill) =>
      match execute c uuid5 o fill with
      | .ok ex => ex :: sentSweep price os
      | .error _ => []

/-- The executions the handler of a message sends, raising or not. -/
def sent (st : State) : Msg → List Execution
  | .tick symbol price =>
    sentAll c uuid5 price (st.pending symbol) ++
      match executeAll c uuid5 price (st.pending symbol) with
      | .ok _ => sentSweep c uuid5 price (st.limitOrders symbol)
      | .error _ => []
  | .order o =>
    match onOrder c uuid5 st o with
    | .ok st' => st'.produced.drop st.produced.length
    | .error _ => []

/-- The handler of a message executes an order at a price. -/
def Executes (st : State) : Msg → Order → Decimal → Prop
  | .tick symbol price, o, p =>
    p = price ∧ (o ∈ st.pending symbol ∨ o ∈ st.limitOrders symbol ∧ NoWorse o p)
  | .order o', o, p =>
    o = o' ∧ st.latestPrice o.symbol = some p ∧ (o.type = .market ∨ o.type = .limit ∧ NoWorse o p)

variable {c uuid5} {st st' : State} {o : Order} {p : Decimal} {ex : Execution} {os : List Order}
  {m : Msg}

theorem mem_sentAll (h : ex ∈ sentAll c uuid5 p os) : ∃ o ∈ os, execute c uuid5 o p = .ok ex := by
  induction os with
  | nil => cases h
  | cons o os ih =>
    unfold sentAll at h
    cases hex : execute c uuid5 o p with
    | error e => simp [hex] at h
    | ok ex' =>
      simp only [hex, List.mem_cons] at h
      rcases h with rfl | h
      · exact ⟨o, List.mem_cons_self, hex⟩
      · obtain ⟨o', ho', hex'⟩ := ih h
        exact ⟨o', List.mem_cons_of_mem _ ho', hex'⟩

theorem mem_sentSweep (h : ex ∈ sentSweep c uuid5 p os) :
    ∃ o ∈ os, NoWorse o p ∧ execute c uuid5 o p = .ok ex := by
  induction os with
  | nil => cases h
  | cons o os ih =>
    have hrest : ex ∈ sentSweep c uuid5 p os →
        ∃ o' ∈ o :: os, NoWorse o' p ∧ execute c uuid5 o' p = .ok ex := by
      intro h
      obtain ⟨o', ho', hex⟩ := ih h
      exact ⟨o', List.mem_cons_of_mem _ ho', hex⟩
    unfold sentSweep at h
    cases hf : limitFillPrice o p with
    | error e => simp [hf] at h
    | ok fill =>
      cases fill with
      | none =>
        simp only [hf] at h
        exact hrest h
      | some q =>
        obtain ⟨rfl, hno⟩ := limitFillPrice_some_iff.mp hf
        cases hex : execute c uuid5 o q with
        | error e => simp [hf, hex] at h
        | ok ex' =>
          simp only [hf, hex, List.mem_cons] at h
          rcases h with rfl | h
          · exact ⟨o, List.mem_cons_self, hno, hex⟩
          · exact hrest h

theorem sentAll_of_ok {exs : List Execution} (h : executeAll c uuid5 p os = .ok exs) :
    sentAll c uuid5 p os = exs := by
  induction os generalizing exs with
  | nil => exact Except.ok.inj h
  | cons o os ih =>
    simp only [executeAll, bind_ok_iff] at h
    obtain ⟨ex, hex, exs', hs, h⟩ := h
    obtain rfl := Except.ok.inj h
    simp only [sentAll, hex, ih hs]

theorem sentSweep_of_ok {exs : List Execution} {waiting : List Order}
    (h : sweep c uuid5 p os = .ok (exs, waiting)) : sentSweep c uuid5 p os = exs := by
  induction os generalizing exs waiting with
  | nil => exact (Prod.mk.inj (Except.ok.inj h)).1
  | cons o os ih =>
    simp only [sweep, bind_ok_iff] at h
    obtain ⟨fill, hf, h⟩ := h
    cases fill with
    | some q =>
      simp only [bind_ok_iff] at h
      obtain ⟨ex, hex, ⟨exs', waiting'⟩, hs, h⟩ := h
      obtain ⟨rfl, rfl⟩ := Prod.mk.inj (Except.ok.inj h)
      simp only [sentSweep, hf, hex, ih hs]
    | none =>
      simp only [bind_ok_iff] at h
      obtain ⟨⟨exs', waiting'⟩, hs, h⟩ := h
      obtain ⟨rfl, rfl⟩ := Prod.mk.inj (Except.ok.inj h)
      simp only [sentSweep, hf, ih hs]

/-- A handler that returns has sent what it adds to the state. -/
theorem produced_step (hs : step c uuid5 st m = .ok st') :
    st'.produced = st.produced ++ sent c uuid5 st m := by
  cases m with
  | tick symbol price =>
    obtain ⟨exs, exs', waiting, he, hw, rfl⟩ := onTick_ok_iff.mp hs
    simp only [sent, he, sentAll_of_ok he, sentSweep_of_ok hw, List.append_assoc]
  | order o =>
    have ho : onOrder c uuid5 st o = .ok st' := hs
    simp only [sent, ho]
    rcases onOrder_cases ho with ⟨_, -, rfl⟩ | ⟨-, -, rfl⟩ | ⟨-, -, rfl⟩ | ⟨_, _, -, -, -, rfl⟩
    all_goals simp

theorem mem_sent (h : ex ∈ sent c uuid5 st m) :
    ∃ o p, Executes st m o p ∧ execute c uuid5 o p = .ok ex := by
  cases m with
  | tick symbol price =>
    rcases List.mem_append.mp h with h | h
    · obtain ⟨o, ho, hex⟩ := mem_sentAll h
      exact ⟨o, price, ⟨rfl, Or.inl ho⟩, hex⟩
    · split at h
      · obtain ⟨o, ho, hno, hex⟩ := mem_sentSweep h
        exact ⟨o, price, ⟨rfl, Or.inr ⟨ho, hno⟩⟩, hex⟩
      · cases h
  | order o =>
    unfold sent at h
    cases hs : onOrder c uuid5 st o with
    | error e => simp [hs] at h
    | ok st' =>
      simp only [hs] at h
      rcases onOrder_cases hs with ⟨_, -, rfl⟩ | ⟨-, -, rfl⟩ | ⟨-, -, rfl⟩ | ⟨p, ex', hp, ht, hex, rfl⟩
      · simp at h
      · simp at h
      · simp at h
      · simp only [List.drop_left, List.mem_singleton] at h
        exact ⟨o, p, ⟨rfl, hp, ht⟩, h ▸ hex⟩

def Holds (st : State) (o : Order) : Prop := ∃ s, o ∈ st.pending s ∨ o ∈ st.limitOrders s

theorem Executes.source (h : Executes st m o p) : Holds st o ∨ m = .order o := by
  cases m with
  | tick symbol price =>
    obtain ⟨-, h | ⟨h, -⟩⟩ := h
    · exact Or.inl ⟨symbol, Or.inl h⟩
    · exact Or.inl ⟨symbol, Or.inr h⟩
  | order o' =>
    obtain ⟨rfl, -⟩ := h
    exact Or.inr rfl

theorem mem_push {f : String → List Order} {o' : Order} {s : String} (h : o' ∈ push f o s) :
    o' ∈ f s ∨ o' = o := by
  unfold push at h
  rcases eq_or_ne s o.symbol with rfl | hne
  · simpa using h
  · rw [Function.update_of_ne hne] at h
    exact Or.inl h

theorem holds_reload {o' : Order} (h : Holds (reload st o) o') : Holds st o' ∨ o' = o := by
  obtain ⟨s, h⟩ := h
  unfold reload at h
  split_ifs at h
  · rcases h with h | h
    · exact (mem_push h).imp_left fun h => ⟨s, Or.inl h⟩
    · exact Or.inl ⟨s, Or.inr h⟩
  · rcases h with h | h
    · exact Or.inl ⟨s, Or.inl h⟩
    · exact (mem_push h).imp_left fun h => ⟨s, Or.inr h⟩

theorem start_snoc (rows : List (String × OrderRow)) (r : String × OrderRow) :
    start (rows ++ [r]) = reload (start rows) (ofRow r.1 r.2) := by
  simp [start]

theorem holds_start {rows : List (String × OrderRow)} (h : Holds (start rows) o) :
    ∃ r ∈ rows, o = ofRow r.1 r.2 := by
  induction rows using List.reverseRecOn with
  | nil =>
    obtain ⟨s, h | h⟩ := h
    · cases h
    · cases h
  | append_singleton rows r ih =>
    rw [start_snoc] at h
    rcases holds_reload h with h | rfl
    · obtain ⟨r', hr', ho⟩ := ih h
      exact ⟨r', List.mem_append_left _ hr', ho⟩
    · exact ⟨r, by simp, rfl⟩

theorem mem_of_sweep {waiting : List Order} {exs : List Execution}
    (h : sweep c uuid5 p os = .ok (exs, waiting)) : ∀ o ∈ waiting, o ∈ os := by
  induction os generalizing exs waiting with
  | nil =>
    obtain ⟨rfl, rfl⟩ := Prod.mk.inj (Except.ok.inj h)
    exact fun _ ho => ho
  | cons o os ih =>
    simp only [sweep, bind_ok_iff] at h
    obtain ⟨fill, -, h⟩ := h
    cases fill with
    | some q =>
      simp only [bind_ok_iff] at h
      obtain ⟨ex, -, ⟨exs', waiting'⟩, hs, h⟩ := h
      obtain ⟨rfl, rfl⟩ := Prod.mk.inj (Except.ok.inj h)
      intro o' ho'
      exact List.mem_cons_of_mem _ (ih hs o' ho')
    | none =>
      simp only [bind_ok_iff] at h
      obtain ⟨⟨exs', waiting'⟩, hs, h⟩ := h
      obtain ⟨rfl, rfl⟩ := Prod.mk.inj (Except.ok.inj h)
      intro o' ho'
      rcases List.mem_cons.mp ho' with rfl | ho'
      · exact List.mem_cons_self
      · exact List.mem_cons_of_mem _ (ih hs o' ho')

/-- A handler keeps orders it held and adds none but the order it received. -/
theorem holds_step (hs : step c uuid5 st m = .ok st') (h : Holds st' o) :
    Holds st o ∨ m = .order o := by
  obtain ⟨s, h⟩ := h
  cases m with
  | tick symbol price =>
    obtain ⟨_, _, waiting, -, hw, rfl⟩ := onTick_ok_iff.mp hs
    left
    rcases eq_or_ne s symbol with rfl | hne
    · simp only [Function.update_self] at h
      rcases h with h | h
      · cases h
      · exact ⟨s, Or.inr (mem_of_sweep hw o h)⟩
    · simp only [Function.update_of_ne hne] at h
      exact ⟨s, h⟩
  | order o' =>
    rcases onOrder_cases hs with ⟨_, -, rfl⟩ | ⟨-, -, rfl⟩ | ⟨-, -, rfl⟩ | ⟨_, _, -, -, -, rfl⟩
    · exact Or.inl ⟨s, h⟩
    · rcases h with h | h
      · rcases mem_push h with h | rfl
        · exact Or.inl ⟨s, Or.inl h⟩
        · exact Or.inr rfl
      · exact Or.inl ⟨s, Or.inr h⟩
    · rcases h with h | h
      · exact Or.inl ⟨s, Or.inl h⟩
      · rcases mem_push h with h | rfl
        · exact Or.inl ⟨s, Or.inr h⟩
        · exact Or.inr rfl
    · exact Or.inl ⟨s, h⟩

/-- The market orders wait for a first price, all others rest with the limit orders. -/
structure Filed (st : State) : Prop where
  waiting : ∀ s, ∀ o ∈ st.pending s, o.type = .market
  resting : ∀ s, ∀ o ∈ st.limitOrders s, o.type ≠ .market

theorem Filed.reload (h : Filed st) : Filed (reload st o) := by
  unfold Engine.reload
  split_ifs with ht
  · refine ⟨?_, h.resting⟩
    intro s o' ho'
    rcases mem_push ho' with ho' | rfl
    · exact h.waiting s o' ho'
    · exact ht
  · refine ⟨h.waiting, ?_⟩
    intro s o' ho'
    rcases mem_push ho' with ho' | rfl
    · exact h.resting s o' ho'
    · exact ht

theorem filed_start (rows : List (String × OrderRow)) : Filed (start rows) := by
  induction rows using List.reverseRecOn with
  | nil => exact ⟨fun _ _ ho => (List.not_mem_nil ho).elim, fun _ _ ho => (List.not_mem_nil ho).elim⟩
  | append_singleton rows r ih =>
    rw [start_snoc]
    exact ih.reload

theorem Filed.step (h : Filed st) (hs : step c uuid5 st m = .ok st') : Filed st' := by
  cases m with
  | tick symbol price =>
    obtain ⟨_, _, waiting, -, hw, rfl⟩ := onTick_ok_iff.mp hs
    refine ⟨?_, ?_⟩
    · intro s o ho
      rcases eq_or_ne s symbol with rfl | hne
      · simp at ho
      · simp only [Function.update_of_ne hne] at ho
        exact h.waiting s o ho
    · intro s o ho
      rcases eq_or_ne s symbol with rfl | hne
      · simp only [Function.update_self] at ho
        exact h.resting s o (mem_of_sweep hw o ho)
      · simp only [Function.update_of_ne hne] at ho
        exact h.resting s o ho
  | order o' =>
    rcases onOrder_cases hs with ⟨_, -, rfl⟩ | ⟨ht, -, rfl⟩ | ⟨ht, -, rfl⟩ | ⟨_, _, -, -, -, rfl⟩
    · exact h
    · refine ⟨?_, h.resting⟩
      intro s o ho
      rcases mem_push ho with ho | rfl
      · exact h.waiting s o ho
      · exact ht
    · refine ⟨h.waiting, ?_⟩
      intro s o ho
      rcases mem_push ho with ho | rfl
      · exact h.resting s o ho
      · rw [ht]
        exact nofun
    · exact ⟨h.waiting, h.resting⟩

/-- Every fill but that of a market order is at a price no worse than the limit. -/
theorem Executes.noWorse (hf : Filed st) (h : Executes st m o p) (ht : o.type ≠ .market) :
    NoWorse o p := by
  cases m with
  | tick symbol price =>
    obtain ⟨-, h | ⟨-, h⟩⟩ := h
    · exact absurd (hf.waiting symbol o h) ht
    · exact h
  | order o' =>
    obtain ⟨-, -, h | ⟨-, h⟩⟩ := h
    · exact absurd h ht
    · exact h

end QuantTrader.Engine
