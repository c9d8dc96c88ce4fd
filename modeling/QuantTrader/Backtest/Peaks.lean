import QuantTrader.Backtest.Disciplined

/-! # Trailing peaks

A disciplined strategy acts on the symbol of the tick only. The peak that it stores for
what it holds is the largest return of the ticks after the one that opened the position,
and it stores none for what it does not hold.
-/

namespace QuantTrader.Backtest

open Transition
open Ledger (Side)

def Filled.Opens (f : Filled) (sym : String) : Prop :=
  f.symbol = sym ∧ f.side = .buy ∧ f.left = f.qty

instance (f : Filled) (sym : String) : Decidable (f.Opens sym) :=
  inferInstanceAs (Decidable (f.symbol = sym ∧ f.side = .buy ∧ f.left = f.qty))

/-- The prices of a symbol after the tick that opened its position. -/
def since (sym : String) (j : Journal) : List ℚ :=
  j.foldl (fun prices x =>
    if ∃ f ∈ x.2, f.Opens sym then []
    else if x.1.symbol = sym then prices ++ [x.1.price] else prices) []

def Largest (xs : List ℚ) : Option ℚ → Prop
  | none => xs = []
  | some m => m ∈ xs ∧ ∀ x ∈ xs, x ≤ m

namespace Disciplined

/-- What a position is worth a peak for: the stored one is the largest return since it was
opened. A position whose average price is not positive has none, nor has what is not held. -/
structure PeakExact {X : Type} (c : Context) (st : State X) (a : Account) (j : Journal) : Prop where
  flat : ∀ sym, a.positions sym = none → st.peak sym = none
  unpriced : ∀ sym p, a.positions sym = some p → p.avg ≤ 0 → st.peak sym = none
  priced : ∀ sym p, a.positions sym = some p → 0 < p.avg →
    ∃ pnls, (since sym j).mapM (pnl c · p.avg) = .ok pnls ∧ Largest pnls (st.peak sym)

section Step

variable {X : Type} {c : Context} {rules : Rules} {st st₁ st₂ st' : State X}
  {sym s : String} {price now x : ℚ} {cfg : EngineConfig} {e e₁ e₂ e' : Engine}
  {fills fills₁ fills₂ : List Filled} {j : Journal} {t : Tick} {xs : List ℚ}

theorem since_snoc : since sym (j ++ [(t, fills)]) =
    if ∃ f ∈ fills, f.Opens sym then []
    else if t.symbol = sym then since sym j ++ [t.price] else since sym j := by
  simp [since, List.foldl_append]

theorem largest_raise {m : Option ℚ} (h : Largest xs m) :
    Largest (xs ++ [x]) (some (raise m x)) := by
  cases m with
  | none =>
    obtain rfl : xs = [] := h
    simp [Largest, raise]
  | some m =>
    obtain ⟨hm, hle⟩ := h
    by_cases hlt : m < x
    · have hr : raise (some m) x = x := if_pos hlt
      rw [hr]
      refine ⟨by simp, ?_⟩
      rintro y hy
      rcases List.mem_append.mp hy with hy | hy
      · exact (hle y hy).trans hlt.le
      · exact (List.mem_singleton.mp hy).le
    · have hr : raise (some m) x = m := if_neg hlt
      rw [hr]
      refine ⟨by simp [hm], ?_⟩
      rintro y hy
      rcases List.mem_append.mp hy with hy | hy
      · exact hle y hy
      · exact (List.mem_singleton.mp hy).le.trans (not_lt.mp hlt)

/-! ## One step -/

/-- Part of a tick of `sym`: what it leaves of the others is as it was. -/
structure At (sym : String) (st : State X) (e : Engine) (st' : State X) (e' : Engine)
    (fills : List Filled) : Prop extends Engine.Only sym e e' fills where
  peak : ∀ s, s ≠ sym → st'.peak s = st.peak s

/-- Nothing is held and no peak is stored. -/
def Flat (sym : String) (st : State X) (e : Engine) : Prop :=
  e.book.account.positions sym = none ∧ st.peak sym = none

/-- A position was opened and has no peak yet. -/
def Opened (sym : String) (st : State X) (e : Engine) (fills : List Filled) : Prop :=
  (∃ p, e.book.account.positions sym = some p) ∧ st.peak sym = none ∧ ∃ f ∈ fills, f.Opens sym

/-- The position is as it was, its peak is raised by the return at a price. -/
def Raised (c : Context) (price : ℚ) (sym : String) (st : State X) (e : Engine) (st' : State X)
    (e' : Engine) : Prop :=
  ∃ p, e.book.account.positions sym = some p ∧ e'.book.account.positions sym = some p ∧
    (p.avg ≤ 0 → st'.peak sym = none) ∧
    (0 < p.avg → ∃ x, pnl c price p.avg = .ok x ∧ st'.peak sym = some (raise (st.peak sym) x))

theorem At.trans (h₁ : At sym st e st₁ e₁ fills₁) (h₂ : At sym st₁ e₁ st₂ e₂ fills₂) :
    At sym st e st₂ e₂ (fills₁ ++ fills₂) where
  toOnly := h₁.toOnly.trans h₂.toOnly
  peak s hs := (h₂.peak s hs).trans (h₁.peak s hs)

theorem At.refl (hw : e.book.account.Whole) (hp : ∀ s, s ≠ sym → st'.peak s = st.peak s) :
    At sym st e st' e [] :=
  ⟨.refl hw, hp⟩

theorem setPeak_peak (m : Option ℚ) : (st.setPeak sym m).peak sym = m := by simp [State.setPeak]

theorem setPeak_ne (m : Option ℚ) (hs : s ≠ sym) : (st.setPeak sym m).peak s = st.peak s := by
  simp [State.setPeak, hs]

@[simp] theorem exited_peak : (st.exited sym now).peak = (st.setPeak sym none).peak := rfl

@[simp] theorem entered_peak : (st.entered sym now).peak = (st.setPeak sym none).peak := rfl

theorem sell_cases {S : Type} {reason : String} {k : Bool → Script S} {y : S × Engine}
    (st : State X) (hw : e.book.account.Whole)
    (h : (Script.sell sym (e.book.account.qty sym) reason now none k).execFills cfg e =
      .ok (y, fills)) :
    (k false).execFills cfg e = .ok (y, fills) ∨
    ∃ e₁ fills₁ fills₂, (k true).execFills cfg e₁ = .ok (y, fills₂) ∧ fills = fills₁ ++ fills₂ ∧
      At sym st e (st.exited sym now) e₁ fills₁ ∧ e₁.book.account.positions sym = none ∧
      ¬ ∃ f ∈ fills₁, f.Opens sym := by
  obtain ⟨⟨e₁, ok⟩, hsell, h⟩ := bind_ok_iff.mp h
  obtain ⟨⟨y₁, fills₂⟩, hk, h⟩ := bind_ok_iff.mp h
  obtain ⟨rfl, rfl⟩ := Prod.mk.inj (Except.ok.inj h)
  rcases Engine.sellAt_cases hw hsell with ⟨rfl, rfl⟩ | ⟨rfl, hw₁, -, hnone, hframe⟩
  · exact .inl hk
  · refine .inr ⟨e₁, [_], fills₂, hk, rfl, ⟨⟨hw₁, hframe, by simp⟩, ?_⟩, hnone, ?_⟩
    · rintro s hs
      rw [exited_peak, setPeak_ne none hs]
    · simp [Filled.Opens]

theorem check_cases {k : State X → Script (State X)} {y : State X × Engine}
    (hw : e.book.account.Whole)
    (h : (checkLiquidations c rules st sym price now k).execFills cfg e = .ok (y, fills)) :
    ∃ st₁ e₁ fills₁ fills₂, (k st₁).execFills cfg e₁ = .ok (y, fills₂) ∧
      fills = fills₁ ++ fills₂ ∧ At sym st e st₁ e₁ fills₁ ∧ (¬ ∃ f ∈ fills₁, f.Opens sym) ∧
      (Flat sym st₁ e₁ ∨ Raised c price sym st e st₁ e₁) := by
  have hne : ∀ m s, s ≠ sym → (st.setPeak sym m).peak s = st.peak s := fun m s hs => setPeak_ne m hs
  unfold checkLiquidations at h
  change (ite (e.book.account.qty sym ≤ 0 ∨ e.book.account.avg sym ≤ 0) _ _ :
    Script (State X)).execFills cfg e = .ok (y, fills) at h
  split_ifs at h with hidle
  · refine ⟨_, e, [], fills, h, rfl, .refl hw (hne none), by simp, ?_⟩
    cases hp : e.book.account.positions sym with
    | none => exact .inl ⟨hp, setPeak_peak none⟩
    | some p =>
      have hqty : ¬ e.book.account.qty sym ≤ 0 := not_le.mpr (hw.qty_pos_iff.mpr ⟨p, hp⟩)
      have havg : p.avg ≤ 0 := by simpa [Account.avg, hp] using hidle.resolve_left hqty
      exact .inr ⟨p, hp, hp, fun _ => setPeak_peak none, fun hpos => absurd havg hpos.not_ge⟩
  · obtain ⟨hqty, havg⟩ := not_or.mp hidle
    obtain ⟨p, hp⟩ := hw.qty_pos_iff.mp (not_le.mp hqty)
    have hpavg : e.book.account.avg sym = p.avg := by simp [Account.avg, hp]
    simp only [Engine.view, hpavg] at h havg
    cases hx : pnl c price p.avg with
    | error err => simp [hx, Script.execFills] at h
    | ok x =>
      simp only [hx] at h
      have hraised : Raised c price sym st e (st.setPeak sym (some (raise (st.peak sym) x))) e :=
        ⟨p, hp, hp, fun hle => absurd hle havg, fun _ => ⟨x, hx, setPeak_peak _⟩⟩
      cases hreason : liquidationReason c rules x (raise (st.peak sym) x) with
      | error err => simp [hreason, Script.execFills] at h
      | ok reason =>
        cases reason with
        | none =>
          simp only [hreason] at h
          exact ⟨_, e, [], fills, h, rfl, .refl hw (hne _), by simp, .inr hraised⟩
        | some reason =>
          simp only [hreason] at h
          rcases sell_cases (st.setPeak sym (some (raise (st.peak sym) x))) hw h with
            h | ⟨e₁, fills₁, fills₂, hk, rfl, hat, hnone, hopen⟩
          · exact ⟨_, e, [], fills, h, rfl, .refl hw (hne _), by simp, .inr hraised⟩
          · refine ⟨_, e₁, fills₁, fills₂, hk, rfl, ?_, hopen, .inl ⟨hnone, ?_⟩⟩
            · exact At.trans (.refl hw (hne _)) hat
            · rw [if_pos rfl, exited_peak, setPeak_peak]

/-- What a signal does to the position and to its peak. -/
def Acted (sym : String) (st : State X) (e : Engine) (st' : State X) (e' : Engine)
    (fills : List Filled) : Prop :=
  (st'.peak sym = st.peak sym ∧
    e'.book.account.positions sym = e.book.account.positions sym ∧ ¬ ∃ f ∈ fills, f.Opens sym) ∨
  (e.book.account.positions sym = none ∧ Opened sym st' e' fills) ∨
  (Flat sym st' e' ∧ ¬ ∃ f ∈ fills, f.Opens sym)

theorem acted_done (hw : e.book.account.Whole)
    (h : (Script.done st).execFills cfg e = .ok ((st', e'), fills)) :
    At sym st e st' e' fills ∧ Acted sym st e st' e' fills := by
  obtain ⟨hx, rfl⟩ := Prod.mk.inj (Except.ok.inj h)
  obtain ⟨rfl, rfl⟩ := Prod.mk.inj hx
  exact ⟨.refl hw fun _ _ => rfl, .inl ⟨rfl, rfl, by simp⟩⟩

theorem enter_cases {allowed : Bool} {fraction : Except Signal ℚ} (hw : e.book.account.Whole)
    (h : (enter c rules st sym price now allowed fraction).execFills cfg e =
      .ok ((st', e'), fills)) :
    At sym st e st' e' fills ∧ Acted sym st e st' e' fills := by
  unfold enter at h
  split_ifs at h
  · exact acted_done hw h
  · change (ite ((decide (0 < e.book.account.qty sym) || st.cooling sym now rules ||
      decide (rules.maxPositions ≤ e.view.openSymbolCount)) = true) _ _ :
        Script (State X)).execFills cfg e = .ok ((st', e'), fills) at h
    split_ifs at h with hguard
    · exact acted_done hw h
    · cases hqty : entryQty c price fraction e.view.cash with
      | error err => simp [hqty, Script.execFills] at h
      | ok qty =>
        cases qty with
        | none =>
          simp only [hqty] at h
          exact acted_done hw h
        | some qty =>
          simp only [hqty] at h
          have hflat : e.book.account.qty sym ≤ 0 := by
            simp only [Bool.or_eq_true, decide_eq_true_eq, not_or, not_lt] at hguard
            exact hguard.1.1
          obtain ⟨⟨e₁, ok⟩, hbuy, h⟩ := bind_ok_iff.mp h
          obtain ⟨⟨y₁, fills₂⟩, hk, h⟩ := bind_ok_iff.mp h
          obtain ⟨hx, rfl⟩ := Prod.mk.inj (Except.ok.inj hk)
          obtain ⟨rfl, rfl⟩ := Prod.mk.inj (Except.ok.inj h)
          obtain ⟨rfl, rfl⟩ := Prod.mk.inj hx
          rcases Engine.buyAt_cases hw hflat hbuy with
            ⟨rfl, rfl⟩ | ⟨rfl, hw₁, -, p, -, hpqty, hp, hframe⟩
          · exact ⟨.refl hw fun _ _ => rfl, .inl ⟨rfl, rfl, by simp⟩⟩
          · refine ⟨⟨⟨hw₁, hframe, by simp⟩, ?_⟩, .inr (.inl ⟨hw.eq_none hflat, ⟨p, hp⟩, ?_, ?_⟩)⟩
            · rintro s hs
              rw [if_pos rfl, entered_peak, setPeak_ne none hs]
            · rw [if_pos rfl, entered_peak, setPeak_peak]
            · exact ⟨_, List.mem_cons_self, rfl, rfl, by simp [Account.qty_of_some hp, hpqty]⟩

theorem exit_cases {reason : String} (hw : e.book.account.Whole)
    (h : (exit rules st sym now reason).execFills cfg e = .ok ((st', e'), fills)) :
    At sym st e st' e' fills ∧ Acted sym st e st' e' fills := by
  unfold exit at h
  split_ifs at h
  · exact acted_done hw h
  · change (ite ((decide (e.book.account.qty sym ≤ 0) ||
      decide (now - (st.entryTime sym).getD negInf < rules.minHoldSec) ||
      st.cooling sym now rules) = true) _ _ :
        Script (State X)).execFills cfg e = .ok ((st', e'), fills) at h
    split_ifs at h
    · exact acted_done hw h
    · rcases sell_cases st hw h with h | ⟨e₁, fills₁, fills₂, hk, rfl, hat, hnone, hopen⟩
      · exact acted_done hw h
      · obtain ⟨hx, rfl⟩ := Prod.mk.inj (Except.ok.inj hk)
        obtain ⟨rfl, rfl⟩ := Prod.mk.inj hx
        rw [List.append_nil, if_pos rfl]
        exact ⟨hat, .inr (.inr ⟨⟨hnone, by rw [exited_peak, setPeak_peak]⟩, hopen⟩)⟩

theorem act_cases {action : Action} (hw : e.book.account.Whole)
    (h : (act c rules st sym price now action).execFills cfg e = .ok ((st', e'), fills)) :
    At sym st e st' e' fills ∧ Acted sym st e st' e' fills := by
  cases action with
  | stay => exact acted_done hw h
  | enter allowed fraction => exact enter_cases hw h
  | exit reason => exact exit_cases hw h

/-- A tick leaves its symbol flat, with a new position, or with a raised peak. -/
theorem onTick_cases {window : ℕ} {decision : X → String → List ℚ → Except Signal (X × Action)}
    (hw : e.book.account.Whole)
    (h : (onTick c rules window decision st t).execFills cfg e = .ok ((st', e'), fills)) :
    At t.symbol st e st' e' fills ∧
      (Opened t.symbol st' e' fills ∨ (¬ ∃ f ∈ fills, f.Opens t.symbol) ∧
        (Flat t.symbol st' e' ∨ Raised c t.price t.symbol st e st' e')) := by
  obtain ⟨st₁, e₁, fills₁, fills₂, hk, rfl, hat₁, hopen, hcheck⟩ := check_cases hw h
  cases hd : decision st₁.own t.symbol (st₁.prices t.symbol) with
  | error err => simp [hd, Script.execFills] at hk
  | ok x =>
    simp only [hd] at hk
    obtain ⟨hat₂, hact⟩ := act_cases hat₁.whole hk
    have hat : At t.symbol st e st₁ e₁ fills₁ := ⟨hat₁.toOnly, hat₁.peak⟩
    have happ : ∀ fs : List Filled, (¬ ∃ f ∈ fs, f.Opens t.symbol) →
        ¬ ∃ f ∈ fills₁ ++ fs, f.Opens t.symbol := by
      rintro fs hfs ⟨f, hf, hf'⟩
      rcases List.mem_append.mp hf with hf | hf
      · exact hopen ⟨f, hf, hf'⟩
      · exact hfs ⟨f, hf, hf'⟩
    refine ⟨hat.trans ⟨hat₂.toOnly, hat₂.peak⟩, ?_⟩
    rcases hact with ⟨hpeak, hpos, hfills⟩ | ⟨hnone, hpos, hpeak, f, hf, hf'⟩ | ⟨hflat, hfills⟩
    · refine .inr ⟨happ _ hfills, ?_⟩
      rcases hcheck with ⟨hnone, hpeak₁⟩ | ⟨p, hp, hp₁, hle, hlt⟩
      · exact .inl ⟨hpos.trans hnone, hpeak.trans hpeak₁⟩
      · exact .inr ⟨p, hp, hpos.trans hp₁, fun h => hpeak.trans (hle h), fun h =>
          (hlt h).imp fun x hx => ⟨hx.1, hpeak.trans hx.2⟩⟩
    · exact .inl ⟨hpos, hpeak, f, List.mem_append_right _ hf, hf'⟩
    · exact .inr ⟨happ _ hfills, .inl hflat⟩

end Step

/-! ## A run -/

section Run

variable {X : Type} {c : Context} {rules : Rules} {window : ℕ}
  {decision : X → String → List ℚ → Except Signal (X × Action)} {st st' : State X} {r r' : Replay}
  {j j' : Journal} {t : Tick} {own : X} {cfg : ReplayConfig} {cash : ℚ} {ticks : List Tick}
  {a : Account} {sym : String}

theorem PeakExact.init : PeakExact c (.init own) (Replay.init cash).book.account [] where
  flat _ _ := rfl
  unpriced _ _ _ _ := rfl
  priced _ _ h := by simp [Replay.init, Engine.init] at h

/-- The peak of one symbol. -/
def ExactAt (c : Context) (st : State X) (a : Account) (j : Journal) (sym : String) : Prop :=
  match a.positions sym with
  | none => st.peak sym = none
  | some p => (p.avg ≤ 0 → st.peak sym = none) ∧
    (0 < p.avg → ∃ pnls, (since sym j).mapM (pnl c · p.avg) = .ok pnls ∧
      Largest pnls (st.peak sym))

theorem exactAt_none (h : a.positions sym = none) :
    ExactAt c st a j sym ↔ st.peak sym = none := by
  rw [ExactAt, h]

theorem exactAt_some {p : Position} (h : a.positions sym = some p) : ExactAt c st a j sym ↔
    (p.avg ≤ 0 → st.peak sym = none) ∧
    (0 < p.avg → ∃ pnls, (since sym j).mapM (pnl c · p.avg) = .ok pnls ∧
      Largest pnls (st.peak sym)) := by
  rw [ExactAt, h]

theorem peakExact_iff : PeakExact c st a j ↔ ∀ sym, ExactAt c st a j sym := by
  constructor
  · rintro h sym
    cases hp : a.positions sym with
    | none => exact (exactAt_none hp).mpr (h.flat sym hp)
    | some p => exact (exactAt_some hp).mpr ⟨h.unpriced sym p hp, h.priced sym p hp⟩
  · rintro h
    refine ⟨fun sym hp => (exactAt_none hp).mp (h sym), ?_, ?_⟩
    · exact fun sym p hp => ((exactAt_some hp).mp (h sym)).1
    · exact fun sym p hp => ((exactAt_some hp).mp (h sym)).2

theorem exactAt_opened {e : Engine} {fills : List Filled} (h : Opened t.symbol st e fills) :
    ExactAt c st e.book.account (j ++ [(t, fills)]) t.symbol := by
  obtain ⟨⟨p, hp⟩, hpeak, hopens⟩ := h
  refine (exactAt_some hp).mpr ⟨fun _ => hpeak, fun _ => ⟨[], ?_, ?_⟩⟩
  · rw [since_snoc, if_pos hopens]
    rfl
  · rw [hpeak]
    rfl

theorem exactAt_raised {e e' : Engine} {fills : List Filled}
    (hexact : ExactAt c st e.book.account j t.symbol)
    (hopens : ¬ ∃ f ∈ fills, f.Opens t.symbol) (h : Raised c t.price t.symbol st e st' e') :
    ExactAt c st' e'.book.account (j ++ [(t, fills)]) t.symbol := by
  obtain ⟨p, hp, hp', hle, hlt⟩ := h
  refine (exactAt_some hp').mpr ⟨hle, fun havg => ?_⟩
  obtain ⟨x, hx, hpeak⟩ := hlt havg
  obtain ⟨pnls, hpnls, hlargest⟩ := ((exactAt_some hp).mp hexact).2 havg
  refine ⟨pnls ++ [x], ?_, ?_⟩
  · rw [since_snoc, if_neg hopens, if_pos rfl, List.mapM_append, hpnls]
    simp [hx, bind, Except.bind, pure, Except.pure]
  · rw [hpeak]
    exact largest_raise hlargest

/-- A tick keeps every position whole and every peak exact. -/
theorem PeakExact.tick (hw : r.book.account.Whole) (hexact : PeakExact c st r.book.account j)
    (h : Replay.tickFills cfg (onTick c rules window decision) ((st, r), j) t =
      .ok ((st', r'), j')) :
    r'.book.account.Whole ∧ PeakExact c st' r'.book.account j' := by
  obtain ⟨e, e', fills, hbook, -, hexec, hbook', rfl⟩ := Replay.tickFills_cases h
  rw [← hbook] at hw hexact
  rw [hbook']
  obtain ⟨hat, hcases⟩ := onTick_cases hw hexec
  refine ⟨hat.whole, peakExact_iff.mpr fun s => ?_⟩
  have hexact := peakExact_iff.mp hexact s
  rcases eq_or_ne s t.symbol with rfl | hs
  · rcases hcases with hopened | ⟨hopens, ⟨hnone, hpeak⟩ | hraised⟩
    · exact exactAt_opened hopened
    · exact (exactAt_none hnone).mpr hpeak
    · exact exactAt_raised hexact hopens hraised
  · have hopens : ¬ ∃ f ∈ fills, f.Opens s := by
      rintro ⟨f, hf, hsym, -⟩
      exact hs (hsym.symm.trans (hat.fills f hf))
    unfold ExactAt at hexact ⊢
    rwa [hat.positions s hs, hat.peak s hs, since_snoc, if_neg hopens, if_neg hs.symm]

theorem PeakExact.run (h : Replay.journaled cfg (onTick c rules window decision) (.init own) cash
    ticks = .ok ((st, r), j)) : PeakExact c st r.book.account j := by
  refine (Replay.journaled_induction
    (P := fun st r j => r.book.account.Whole ∧ PeakExact c st r.book.account j) ?_ ?_ h).2
  · exact ⟨by simp [Account.Whole, Replay.init, Engine.init], .init⟩
  · rintro st r j t st' r' j' - ⟨hw, hexact⟩ htick
    exact hexact.tick hw htick

end Run

end Disciplined

open Disciplined

/-- After every run of `SMAStrategy` or of a `DisciplinedStrategy` the peaks are exact. -/
theorem peaks_exact (cfg : ReplayConfig) (cash : ℚ) (ticks : List Tick) :
    (∀ (p : SMAStrategy) st r j,
      Replay.journaled cfg (p.onTick cfg.context) SMAStrategy.init cash ticks =
        .ok ((st, r), j) → PeakExact cfg.context st r.book.account j) ∧
    ∀ (X : Type) (d : DisciplinedStrategy X) own st r j,
      Replay.journaled cfg (d.onTick cfg.context) (.init own) cash ticks = .ok ((st, r), j) →
        PeakExact cfg.context st r.book.account j := by
  constructor
  · rintro p st r j h
    exact PeakExact.run h
  · rintro X d own st r j h
    exact PeakExact.run h

/-- A strategy that always buys, with half of the cash. -/
def eager : DisciplinedStrategy Unit where
  rules := ⟨1 / 2, 1 / 2, 1 / 2, 1 / 2, 0, 0, 0, 10⟩
  window := 2
  orderFraction := 1 / 2
  signal _ _ _ := .ok ((), some .buy)

def demoTicks (prices : List ℚ) : List Tick :=
  prices.mapIdx fun i price => ⟨"KRW-A", price, 60 * i⟩

/-- What is held of the coin, its peak and the prices since it was opened. -/
def demoView (x : (State Unit × Replay) × Journal) : Option Position × Option ℚ × List ℚ :=
  (x.1.2.book.account.positions "KRW-A", x.1.1.peak "KRW-A", since "KRW-A" x.2)

def demoRun (prices : List ℚ) : Except Failure ((State Unit × Replay) × Journal) :=
  Replay.journaled minutely (eager.onTick minutely.context) (.init ()) 1000000 (demoTicks prices)

theorem peaks_exact_demo : ∃ st r j, demoRun [100, 120, 110] = .ok ((st, r), j) ∧
    since "KRW-A" j = [120, 110] ∧
    st.peak "KRW-A" = some (19940029985007496251874063 / 10 ^ 26) ∧
    PeakExact minutely.context st r.book.account j := by
  have hview : demoView <$> demoRun [100, 120, 110] = .ok
      (some ⟨5000, 2001 / 20, 0, 100, 250⟩, some (19940029985007496251874063 / 10 ^ 26),
        [120, 110]) := by decide +kernel
  obtain ⟨⟨⟨st, r⟩, j⟩, hrun, hview⟩ := map_ok_iff.mp hview
  obtain ⟨-, hview⟩ := Prod.mk.inj hview
  obtain ⟨hpeak, hsince⟩ := Prod.mk.inj hview
  exact ⟨st, r, j, hrun, hsince, hpeak,
    (peaks_exact minutely 1000000 (demoTicks [100, 120, 110])).2 Unit eager () st r j hrun⟩

/-- A unit cost that rounds to zero leaves a position without a peak on a later tick. -/
theorem peak_absent_later : ¬ ∀ st r j, demoRun [1 / 100000, 1 / 100000] = .ok ((st, r), j) →
    ∀ sym p, r.book.account.positions sym = some p → st.peak sym = none → since sym j = [] := by
  intro h
  have hview : demoView <$> demoRun [1 / 100000, 1 / 100000] = .ok
      (some ⟨50000000000, 0, 0, 1 / 100000, 250⟩, none, [1 / 100000]) := by decide +kernel
  obtain ⟨⟨⟨st, r⟩, j⟩, hrun, hview⟩ := map_ok_iff.mp hview
  obtain ⟨hpos, hview⟩ := Prod.mk.inj hview
  obtain ⟨hpeak, hsince⟩ := Prod.mk.inj hview
  have hnil := h st r j hrun "KRW-A" _ hpos hpeak
  rw [hsince] at hnil
  cases hnil

end QuantTrader.Backtest
