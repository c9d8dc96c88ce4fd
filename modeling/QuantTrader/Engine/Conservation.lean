import Mathlib.Data.List.Perm.Basic
import Mathlib.Data.List.Forall2
import Mathlib.Data.Multiset.AddSub
import Mathlib.Tactic.Abel
import QuantTrader.Engine.Matching

/-! # Order conservation

Every order an engine run takes in is executed once, waits for a price or rests
with the limit orders. No market order waits once a price is known, and no
resting order is marketable.
-/

namespace QuantTrader.Engine

open Ledger Transition

variable {c : Context} {uuid5 : String → String} {st st' : State} {o : Order} {p : Decimal}
  {rows : List (String × OrderRow)} {msgs : List Msg} {s : String}

def ofSymbol (s : String) (os : List Order) : List Order := os.filter (·.symbol = s)

/-- The market and limit orders among the messages. -/
def orderMsgs : List Msg → List Order
  | [] => []
  | .tick _ _ :: msgs => orderMsgs msgs
  | .order o :: msgs =>
    match o.type with
    | .other _ => orderMsgs msgs
    | _ => o :: orderMsgs msgs

/-- Every order taken in: the reloaded rows, then the consumed messages. -/
def consumed (rows : List (String × OrderRow)) (msgs : List Msg) : List Order :=
  rows.map (fun r => ofRow r.1 r.2) ++ orderMsgs msgs

/-- The messages produced are those of a list of orders, each filled at a price. -/
def Produced (c : Context) (uuid5 : String → String) (fills : List (Order × Decimal))
    (exs : List Execution) : Prop :=
  List.Forall₂ (fun f ex => execute c uuid5 f.1 f.2 = .ok ex) fills exs

/-- Where the orders taken in are, and what holds of the lists that keep them. -/
structure Conserved (c : Context) (uuid5 : String → String) (taken : List Order)
    (fills : List (Order × Decimal)) (st : State) : Prop where
  produced : Produced c uuid5 fills st.produced
  split : ∀ s, (ofSymbol s taken).Perm
    (ofSymbol s (fills.map Prod.fst) ++ st.pending s ++ st.limitOrders s)
  idle : ∀ s, st.latestPrice s ≠ none → st.pending s = []
  resting : ∀ s p, st.latestPrice s = some p → ∀ o ∈ st.limitOrders s, Unmet o p
  waiting : ∀ s, ∀ o ∈ st.pending s, o.type = .market
  bound : ∀ f ∈ fills, f.1.type ≠ .market → NoWorse f.1 f.2

/-! ## The lists of one symbol -/

@[simp] theorem ofSymbol_append (s : String) (os os' : List Order) :
    ofSymbol s (os ++ os') = ofSymbol s os ++ ofSymbol s os' := List.filter_append ..

theorem ofSymbol_singleton (s : String) (o : Order) :
    ofSymbol s [o] = if o.symbol = s then [o] else [] := by
  unfold ofSymbol
  split_ifs with h <;> simp [h]

theorem ofSymbol_eq_self {os : List Order} (h : ∀ o ∈ os, o.symbol = s) : ofSymbol s os = os := by
  apply List.filter_eq_self.mpr
  intro o ho
  simpa using h o ho

theorem ofSymbol_eq_nil {os : List Order} (h : ∀ o ∈ os, o.symbol ≠ s) : ofSymbol s os = [] := by
  apply List.filter_eq_nil_iff.mpr
  intro o ho
  simpa using h o ho

theorem push_apply (f : String → List Order) (o : Order) (s : String) :
    push f o s = f s ++ ofSymbol s [o] := by
  rw [ofSymbol_singleton]
  unfold push
  rcases eq_or_ne s o.symbol with rfl | h
  · simp
  · simp [h, h.symm]

/-! ## One more element of a split list -/

section Split

variable {α : Type*} {t f a b : List α}

theorem perm_add_waiting (h : t.Perm (f ++ a ++ b)) (n : List α) :
    (t ++ n).Perm (f ++ (a ++ n) ++ b) := by
  rw [← Multiset.coe_eq_coe] at h ⊢
  simp only [← Multiset.coe_add] at h ⊢
  rw [h]
  abel

theorem perm_add_resting (h : t.Perm (f ++ a ++ b)) (n : List α) :
    (t ++ n).Perm (f ++ a ++ (b ++ n)) := by
  rw [← List.append_assoc]
  exact h.append_right n

theorem perm_add_filled (h : t.Perm (f ++ a ++ b)) (n : List α) :
    (t ++ n).Perm (f ++ n ++ a ++ b) := by
  rw [← Multiset.coe_eq_coe] at h ⊢
  simp only [← Multiset.coe_add] at h ⊢
  rw [h]
  abel

end Split

namespace Conserved

variable {taken : List Order} {fills : List (Order × Decimal)}

theorem symbol_of_mem (h : Conserved c uuid5 taken fills st)
    (ho : o ∈ st.pending s ++ st.limitOrders s) : o.symbol = s := by
  have hm : o ∈ ofSymbol s taken := by
    rw [(h.split s).mem_iff, List.append_assoc]
    exact List.mem_append_right _ ho
  simpa [ofSymbol] using (List.mem_filter.mp hm).2

theorem wait (h : Conserved c uuid5 taken fills st) (ht : o.type = .market)
    (hp : st.latestPrice o.symbol = none) :
    Conserved c uuid5 (taken ++ [o]) fills { st with pending := push st.pending o } := by
  refine ⟨h.produced, ?_, ?_, h.resting, ?_, h.bound⟩
  · intro s
    simp only [ofSymbol_append, push_apply]
    exact perm_add_waiting (h.split s) _
  · intro s hs
    have hne : o.symbol ≠ s := by
      rintro rfl
      exact hs hp
    simp only [push_apply, ofSymbol_singleton, if_neg hne, List.append_nil]
    exact h.idle s hs
  · intro s o' ho'
    simp only [push_apply, ofSymbol_singleton] at ho'
    rcases List.mem_append.mp ho' with ho' | ho'
    · exact h.waiting s o' ho'
    · split_ifs at ho' with hs
      · rwa [List.mem_singleton.mp ho']
      · cases ho'

theorem rest (h : Conserved c uuid5 taken fills st)
    (hp : ∀ p, st.latestPrice o.symbol = some p → Unmet o p) :
    Conserved c uuid5 (taken ++ [o]) fills { st with limitOrders := push st.limitOrders o } := by
  refine ⟨h.produced, ?_, h.idle, ?_, h.waiting, h.bound⟩
  · intro s
    simp only [ofSymbol_append, push_apply]
    exact perm_add_resting (h.split s) _
  · intro s p hs o' ho'
    simp only [push_apply, ofSymbol_singleton] at ho'
    rcases List.mem_append.mp ho' with ho' | ho'
    · exact h.resting s p hs o' ho'
    · split_ifs at ho' with hos
      · rw [List.mem_singleton.mp ho']
        exact hp p (by rw [hos]; exact hs)
      · cases ho'

theorem reload (h : Conserved c uuid5 taken fills st) (hp : ∀ s, st.latestPrice s = none) :
    Conserved c uuid5 (taken ++ [o]) fills (reload st o) := by
  unfold Engine.reload
  split_ifs with ht
  · exact h.wait ht (hp o.symbol)
  · apply h.rest
    intro p hs
    rw [hp] at hs
    cases hs

theorem fill {ex : Execution} (h : Conserved c uuid5 taken fills st)
    (ho : o.type = .market ∨ o.type = .limit ∧ NoWorse o p) (hex : execute c uuid5 o p = .ok ex) :
    Conserved c uuid5 (taken ++ [o]) (fills ++ [(o, p)])
      { st with produced := st.produced ++ [ex] } := by
  refine ⟨List.rel_append h.produced (.cons hex .nil), ?_, h.idle, h.resting, h.waiting, ?_⟩
  · intro s
    simp only [List.map_append, List.map_cons, List.map_nil, ofSymbol_append]
    exact perm_add_filled (h.split s) _
  · intro f hf hm
    rcases List.mem_append.mp hf with hf | hf
    · exact h.bound f hf hm
    · rw [List.mem_singleton.mp hf] at hm ⊢
      rcases ho with ho | ⟨-, ho⟩
      · exact absurd ho hm
      · exact ho

end Conserved

/-! ## A tick -/

theorem executeAll_produced {os : List Order} {exs : List Execution}
    (h : executeAll c uuid5 p os = .ok exs) : Produced c uuid5 (os.map fun o => (o, p)) exs := by
  induction os generalizing exs with
  | nil =>
    obtain rfl := Except.ok.inj h
    exact .nil
  | cons o os ih =>
    simp only [executeAll, bind_ok_iff] at h
    obtain ⟨ex, hex, exs', hs, h⟩ := h
    obtain rfl := Except.ok.inj h
    exact .cons hex (ih hs)

theorem sweep_split {os waiting : List Order} {exs : List Execution}
    (h : sweep c uuid5 p os = .ok (exs, waiting)) :
    ∃ filled : List Order, os.Perm (filled ++ waiting) ∧ (∀ o ∈ filled, NoWorse o p) ∧
      (∀ o ∈ waiting, Unmet o p) ∧
      Produced c uuid5 (filled.map fun o => (o, p)) exs := by
  induction os generalizing exs waiting with
  | nil =>
    obtain ⟨rfl, rfl⟩ := Prod.mk.inj (Except.ok.inj h)
    exact ⟨[], .refl _, by simp, by simp, .nil⟩
  | cons o os ih =>
    simp only [sweep, bind_ok_iff] at h
    obtain ⟨fill, hf, h⟩ := h
    cases fill with
    | some q =>
      obtain ⟨rfl, hno⟩ := limitFillPrice_some_iff.mp hf
      simp only [bind_ok_iff] at h
      obtain ⟨ex, hex, ⟨exs', waiting'⟩, hs, h⟩ := h
      obtain ⟨rfl, rfl⟩ := Prod.mk.inj (Except.ok.inj h)
      obtain ⟨filled, hperm, hfill, hwait, hprod⟩ := ih hs
      refine ⟨o :: filled, hperm.cons o, ?_, hwait, .cons hex hprod⟩
      intro o' ho'
      rcases List.mem_cons.mp ho' with rfl | ho'
      · exact hno
      · exact hfill o' ho'
    | none =>
      simp only [bind_ok_iff] at h
      obtain ⟨⟨exs', waiting'⟩, hs, h⟩ := h
      obtain ⟨rfl, rfl⟩ := Prod.mk.inj (Except.ok.inj h)
      obtain ⟨filled, hperm, hfill, hwait, hprod⟩ := ih hs
      refine ⟨filled, (hperm.cons o).trans List.perm_middle.symm, hfill, ?_, hprod⟩
      intro o' ho'
      rcases List.mem_cons.mp ho' with rfl | ho'
      · exact limitFillPrice_none_iff.mp hf
      · exact hwait o' ho'

theorem Conserved.split_tick {taken filled waiting : List Order} {fills : List (Order × Decimal)}
    (h : Conserved c uuid5 taken fills st)
    (hperm : (st.limitOrders s).Perm (filled ++ waiting)) (s' : String) :
    (ofSymbol s' taken).Perm
      (ofSymbol s' ((fills ++ (st.pending s).map (fun o => (o, p)) ++
        filled.map fun o => (o, p)).map Prod.fst) ++ Function.update st.pending s [] s' ++
        Function.update st.limitOrders s waiting s') := by
  have hpend : ∀ o ∈ st.pending s, o.symbol = s := fun o ho =>
    h.symbol_of_mem (List.mem_append_left _ ho)
  have hfil : ∀ o ∈ filled, o.symbol = s := fun o ho =>
    h.symbol_of_mem (List.mem_append_right _ (hperm.mem_iff.mpr (List.mem_append_left _ ho)))
  simp only [List.map_append, List.map_map, Function.comp_def, List.map_id', ofSymbol_append]
  rcases eq_or_ne s' s with rfl | hne
  · simp only [Function.update_self, ofSymbol_eq_self hpend, ofSymbol_eq_self hfil]
    refine (h.split s').trans ?_
    rw [List.append_nil, List.append_assoc _ filled]
    exact hperm.append_left _
  · have hpend' : ofSymbol s' (st.pending s) = [] :=
      ofSymbol_eq_nil fun o ho => by rw [hpend o ho]; exact hne.symm
    have hfil' : ofSymbol s' filled = [] :=
      ofSymbol_eq_nil fun o ho => by rw [hfil o ho]; exact hne.symm
    simp only [Function.update_of_ne hne, hpend', hfil', List.append_nil]
    exact h.split s'

theorem Conserved.tick {taken : List Order} {fills : List (Order × Decimal)}
    (h : Conserved c uuid5 taken fills st) (ht : onTick c uuid5 st s p = .ok st') :
    ∃ fills', Conserved c uuid5 taken fills' st' := by
  obtain ⟨exs, exs', waiting, he, hs, rfl⟩ := onTick_ok_iff.mp ht
  obtain ⟨filled, hperm, hno, hwait, hprod⟩ := sweep_split hs
  refine ⟨fills ++ (st.pending s).map (fun o => (o, p)) ++ filled.map fun o => (o, p),
    List.rel_append (List.rel_append h.produced (executeAll_produced he)) hprod,
    h.split_tick hperm, ?_, ?_, ?_, ?_⟩
  · intro s' hs'
    rcases eq_or_ne s' s with rfl | hne
    · simp
    · simp only [Function.update_of_ne hne] at hs' ⊢
      exact h.idle s' hs'
  · intro s' p' hs' o ho
    rcases eq_or_ne s' s with rfl | hne
    · simp only [Function.update_self, Option.some.injEq] at hs' ho
      rw [← hs']
      exact hwait o ho
    · simp only [Function.update_of_ne hne] at hs' ho
      exact h.resting s' p' hs' o ho
  · intro s' o ho
    rcases eq_or_ne s' s with rfl | hne
    · simp at ho
    · simp only [Function.update_of_ne hne] at ho
      exact h.waiting s' o ho
  · intro f hf hm
    rcases List.mem_append.mp hf with hf | hf
    · rcases List.mem_append.mp hf with hf | hf
      · exact h.bound f hf hm
      · obtain ⟨o, ho, rfl⟩ := List.mem_map.mp hf
        exact absurd (h.waiting s o ho) hm
    · obtain ⟨o, ho, rfl⟩ := List.mem_map.mp hf
      exact hno o ho

/-! ## Runs -/

theorem orderMsgs_append (msgs msgs' : List Msg) :
    orderMsgs (msgs ++ msgs') = orderMsgs msgs ++ orderMsgs msgs' := by
  induction msgs with
  | nil => rfl
  | cons m msgs ih =>
    cases m with
    | tick => exact ih
    | order o =>
      simp only [List.cons_append, orderMsgs, ih]
      cases o.type <;> rfl

theorem conserved_start : Conserved c uuid5 (consumed rows []) [] (start rows) ∧
    ∀ s, (start rows).latestPrice s = none := by
  unfold start consumed
  rw [orderMsgs, List.append_nil]
  induction rows using List.reverseRecOn with
  | nil =>
    refine ⟨⟨.nil, fun _ => .refl _, fun _ _ => rfl, ?_, ?_, ?_⟩, fun _ => rfl⟩
    · intro s p _ o ho
      cases ho
    · intro s o ho
      cases ho
    · intro f hf
      cases hf
  | append_singleton rows r ih =>
    obtain ⟨h, hp⟩ := ih
    rw [List.map_append, List.foldl_append]
    refine ⟨h.reload hp, ?_⟩
    intro s
    simp only [List.map_cons, List.map_nil, List.foldl_cons, List.foldl_nil, reload]
    split_ifs
    · exact hp s
    · exact hp s

theorem Conserved.step {taken : List Order} {fills : List (Order × Decimal)} {m : Msg}
    (h : Conserved c uuid5 taken fills st) (hs : step c uuid5 st m = .ok st') :
    ∃ fills', Conserved c uuid5 (taken ++ orderMsgs [m]) fills' st' := by
  cases m with
  | tick symbol price =>
    rw [orderMsgs, orderMsgs, List.append_nil]
    exact h.tick hs
  | order o =>
    rcases onOrder_cases hs with ⟨n, ht, rfl⟩ | ⟨ht, hp, rfl⟩ | ⟨ht, hp, rfl⟩ | ⟨p, ex, -, ht, hex, rfl⟩
    · simp only [orderMsgs, ht, List.append_nil]
      exact ⟨fills, h⟩
    · simp only [orderMsgs, ht]
      exact ⟨fills, h.wait ht hp⟩
    · simp only [orderMsgs, ht]
      exact ⟨fills, h.rest fun p hs => limitFillPrice_none_iff.mp (hp p hs)⟩
    · have hm : orderMsgs [Msg.order o] = [o] := by
        rcases ht with ht | ⟨ht, -⟩
        · simp only [orderMsgs, ht]
        · simp only [orderMsgs, ht]
      rw [hm]
      exact ⟨fills ++ [(o, p)], h.fill ht hex⟩

/-- In every state an engine run reaches, each order taken in was executed once, waits or rests. -/
theorem orders_conserved (h : run c uuid5 (start rows) msgs = .ok st) :
    ∃ fills, Conserved c uuid5 (consumed rows msgs) fills st := by
  induction msgs using List.reverseRecOn generalizing st with
  | nil =>
    obtain rfl := Except.ok.inj h
    exact ⟨[], conserved_start.1⟩
  | append_singleton msgs m ih =>
    obtain ⟨mid, hmid, hs⟩ := run_snoc_ok_iff.mp h
    obtain ⟨fills, hf⟩ := ih hmid
    rw [consumed, orderMsgs_append, ← List.append_assoc]
    exact hf.step hs

theorem hundred_lt : |((1000000 : ℤ) : ℚ) * Postgres.unit 4| < Postgres.bound 20 4 := by
  decide +kernel

theorem coin_lt : |((1000000000000 : ℤ) : ℚ) * Postgres.unit 12| < Postgres.bound 28 12 := by
  decide +kernel

def demoRow (side : Side) : OrderRow :=
  ⟨"demo", "KRW-BTC", side, .limit, some (Postgres.ofCoeff 20 4 1000000 hundred_lt),
    Postgres.ofCoeff 28 12 1000000000000 coin_lt, .pending⟩

def demoSell : Order := ⟨"o3", "demo", "KRW-BTC", .sell, .market, none, .fin 2⟩

/-- The market sell and the limit sell are filled at the first tick, the limit buy rests until the
second one, and a buy at 98 rests at the end. -/
def demoMsgs : List Msg :=
  [.order demoSell, .tick "KRW-BTC" (.fin 105), .tick "KRW-BTC" (.fin 99),
    .order ⟨"o4", "demo", "KRW-BTC", .buy, .limit, some (.fin 98), .fin 1⟩]

theorem orders_conserved_demo : ∃ st fills,
    run Context.default id (start [("o1", demoRow .buy), ("o2", demoRow .sell)]) demoMsgs = .ok st ∧
      (st.produced.map fun ex => (ex.orderId, ex.price)) =
        [("o3", .fin 105), ("o2", .fin 105), ("o1", .fin 99)] ∧
      (st.limitOrders "KRW-BTC").map Order.orderId = ["o4"] ∧
      Conserved Context.default id
        (consumed [("o1", demoRow .buy), ("o2", demoRow .sell)] demoMsgs) fills st := by
  have hrun : (fun st => (st.produced.map fun ex => (ex.orderId, ex.price),
        (st.limitOrders "KRW-BTC").map Order.orderId)) <$>
      run Context.default id (start [("o1", demoRow .buy), ("o2", demoRow .sell)]) demoMsgs = .ok
        ([("o3", .fin 105), ("o2", .fin 105), ("o1", .fin 99)], ["o4"]) := by
    decide +kernel
  obtain ⟨st, h, heq⟩ := map_ok_iff.mp hrun
  obtain ⟨hproduced, hresting⟩ := Prod.mk.inj heq
  obtain ⟨fills, hf⟩ := orders_conserved h
  exact ⟨st, fills, h, hproduced, hresting, hf⟩

end QuantTrader.Engine
