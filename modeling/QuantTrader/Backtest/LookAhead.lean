import QuantTrader.Backtest.CrossSectional
import QuantTrader.Frames.Sorting

/-! # No look-ahead

The end of a bar is noticed at the first tick of another one. Apart from the
times it writes down, rebalancing depends on that tick only through the price
of a held symbol, and on the order of the ticks only through equal returns.
-/

namespace QuantTrader.Backtest

open Ledger (Side)
open Strategy (PyFloat)
open Transition

variable {c : Context} {m : FillModel} {cfg : XSConfig}

/-! ## Accounts up to entry times -/

def Position.untimed (p : Position) : Position := { p with entryTs := 0 }

/-- The account without the times of its entries. -/
def Account.untimed (a : Account) : Account :=
  { a with positions := fun s => (a.positions s).map Position.untimed }

section Account

variable {a a' : Account} {symbol : String} {price qty fee tax ts ts' : ℚ}

theorem Account.untimed_position (h : a.untimed = a'.untimed) (s : String) :
    (a.positions s).map Position.untimed = (a'.positions s).map Position.untimed :=
  congrFun (congrArg Account.positions h) s

theorem Account.untimed_cash (h : a.untimed = a'.untimed) : a.cash = a'.cash := by
  change a.untimed.cash = a'.untimed.cash
  rw [h]

theorem Account.qty_untimed (h : a.untimed = a'.untimed) : a.qty symbol = a'.qty symbol := by
  have hp := congrArg (Option.map Position.qty) (Account.untimed_position h symbol)
  rw [Option.map_map, Option.map_map] at hp
  exact congrArg (Option.getD · 0) hp

theorem Account.untimed_cases (h : a.untimed = a'.untimed) (s : String) :
    a.positions s = none ∧ a'.positions s = none ∨
      ∃ p t, a.positions s = some p ∧ a'.positions s = some { p with entryTs := t } := by
  have hp := Account.untimed_position h s
  cases ha : a.positions s with
  | none =>
    rw [ha] at hp
    exact Or.inl ⟨rfl, Option.map_eq_none_iff.mp hp.symm⟩
  | some p =>
    rw [ha] at hp
    obtain ⟨p', hp', heq⟩ := Option.map_eq_some_iff.mp hp.symm
    right
    refine ⟨p, p'.entryTs, rfl, ?_⟩
    rw [hp']
    cases p
    cases p'
    simp_all [Position.untimed]

theorem Account.untimed_set {p p' : Option Position} {cash : ℚ} (h : a.untimed = a'.untimed)
    (hp : p.map Position.untimed = p'.map Position.untimed) :
    ({ a with cash }.setPosition symbol p).untimed =
      ({ a' with cash }.setPosition symbol p').untimed := by
  have hpos : ∀ s, ((Function.update a.positions symbol p) s).map Position.untimed =
      ((Function.update a'.positions symbol p') s).map Position.untimed := by
    intro s
    by_cases hs : s = symbol
    · subst hs
      simpa using hp
    · simpa [hs] using Account.untimed_position h s
  exact congrArg (Account.mk cash) (funext hpos)

theorem openOrAdd_untimed {p p' : Option Position} (opened : Position)
    (hp : p = none ∧ p' = none ∨ ∃ x t, p = some x ∧ p' = some { x with entryTs := t }) :
    Paired (fun r r' => r.untimed = r'.untimed) (Account.openOrAdd c opened p)
      (Account.openOrAdd c { opened with entryTs := ts } p') := by
  rcases hp with ⟨rfl, rfl⟩ | ⟨x, t, rfl, rfl⟩
  · exact .ok rfl
  · unfold Account.openOrAdd
    dsimp only
    split_ifs
    · exact .ok rfl
    · unfold Account.addTo
      refine Paired.bind_same fun newQty => ?_
      refine Paired.bind_same fun held => ?_
      refine Paired.bind_same fun bought => ?_
      refine Paired.bind_same fun total => ?_
      refine Paired.bind_same fun avg => ?_
      refine Paired.bind_same fun avg => ?_
      exact .ok rfl

theorem applyBuy_untimed (h : a.untimed = a'.untimed) :
    Paired (fun r r' => r.1.untimed = r'.1.untimed ∧ r.2 = r'.2)
      (a.applyBuy c symbol price qty fee ts) (a'.applyBuy c symbol price qty fee ts') := by
  unfold Account.applyBuy
  rw [Account.untimed_cash h]
  refine Paired.bind_same fun value => ?_
  refine Paired.bind_same fun cost => ?_
  split_ifs
  · exact .ok ⟨h, rfl⟩
  · refine Paired.bind_same fun rest => ?_
    refine Paired.bind_same fun cash => ?_
    refine Paired.bind_same fun unit => ?_
    refine Paired.bind_same fun unitCost => ?_
    apply (openOrAdd_untimed _ (Account.untimed_cases h symbol)).bind
    intro p p' hp
    exact .ok ⟨Account.untimed_set h (congrArg some hp), rfl⟩

theorem applySell_untimed (h : a.untimed = a'.untimed) :
    Paired (fun r r' => r.1.untimed = r'.1.untimed)
      (a.applySell c symbol price qty fee ts tax) (a'.applySell c symbol price qty fee ts' tax) := by
  unfold Account.applySell
  rw [Account.untimed_cash h]
  rcases Account.untimed_cases h symbol with ⟨hp, hp'⟩ | ⟨p, t, hp, hp'⟩
  · rw [hp, hp']
    exact .ok h
  · rw [hp, hp']
    dsimp only
    split_ifs
    · exact .ok h
    · refine Paired.bind_same fun value => ?_
      refine Paired.bind_same fun net => ?_
      refine Paired.bind_same fun proceeds => ?_
      refine Paired.bind_same fun sum => ?_
      refine Paired.bind_same fun cash => ?_
      refine Paired.bind_same fun costBasis => ?_
      refine Paired.bind_same fun pnl => ?_
      refine Paired.bind_same fun ret => ?_
      refine Paired.bind_same fun share => ?_
      refine Paired.bind_same fun part => ?_
      refine Paired.bind_same fun buyFee => ?_
      refine Paired.bind_same fun entryFee => ?_
      refine Paired.bind_same fun newQty => ?_
      refine .ok (Account.untimed_set h ?_)
      split_ifs <;> rfl

end Account

/-! ## Books -/

/-- The same amounts, with the positions in the same order. -/
structure Book.Same (b b' : Book) : Prop where
  account : b.account.untimed = b'.account.untimed
  held : b.held = b'.held

section Book

variable {b b' : Book} {prices prices' : String → Option ℚ}

theorem Book.Same.equity_paired (h : b.Same b') (hp : ∀ s ∈ b.held, prices s = prices' s) :
    Paired Eq (b.equity c prices) (b'.equity c prices') := by
  unfold Book.equity
  rw [← h.held, Account.untimed_cash h.account]
  refine Paired.foldlM ?_ rfl
  rintro s hs eq _ rfl
  rw [hp s hs]
  rcases Account.untimed_cases h.account s with ⟨hpos, hpos'⟩ | ⟨p, t, hpos, hpos'⟩
  · rw [hpos, hpos']
    exact Paired.refl _
  · rw [hpos, hpos']
    cases prices' s with
    | none => exact Paired.refl _
    | some lp => exact Paired.refl _

theorem Book.Same.buy (h : b.Same b') (symbol : String) (qty ts ts' price : ℚ) :
    Paired Book.Same (b.buy c m symbol qty ts price) (b'.buy c m symbol qty ts' price) := by
  unfold Book.buy
  dsimp only
  split_ifs
  · exact .ok h
  · refine Paired.bind_same fun fp => ?_
    refine Paired.bind_same fun fee => ?_
    apply (applyBuy_untimed h.account).bind
    rintro r r' ⟨ha, hdone⟩
    rw [h.held, hdone]
    exact .ok ⟨ha, rfl⟩

theorem Book.Same.sell (h : b.Same b') (symbol : String) (qty ts ts' price : ℚ) :
    Paired (fun r r' => r.Same r' ∧ ∀ s ∈ r.held, s ∈ b.held)
      (b.sell c m symbol qty ts price) (b'.sell c m symbol qty ts' price) := by
  unfold Book.sell
  dsimp only
  split_ifs
  · exact .ok ⟨h, fun _ hs => hs⟩
  · refine Paired.bind_same fun fp => ?_
    refine Paired.bind_same fun fee => ?_
    refine Paired.bind_same fun tax => ?_
    apply (applySell_untimed h.account).bind
    intro r r' ha
    have hnone : (r.1.positions symbol).isNone = (r'.1.positions symbol).isNone := by
      rcases Account.untimed_cases ha symbol with ⟨hp, hp'⟩ | ⟨p, t, hp, hp'⟩
      · rw [hp, hp']
      · rw [hp, hp']
        rfl
    rw [← h.held, ← hnone]
    refine .ok ⟨⟨ha, rfl⟩, ?_⟩
    intro s hs
    dsimp only at hs
    split_ifs at hs
    · exact List.mem_of_mem_erase hs
    · exact hs

end Book

/-! ## Rebalancing -/

section Rebalance

variable {F : Type} [PyFloat F] {snapshot prices prices' : String → Option ℚ} {longs : List String}
  {book book' : Book} {tw cash equity ts ts' : ℚ}

/-- The two loops at work: the same books and orders, and no new symbols. -/
def InStep (held : List String) (acc acc' : Book × List Order) : Prop :=
  acc.1.Same acc'.1 ∧ acc.2 = acc'.2 ∧ ∀ s ∈ acc.1.held, s ∈ held

theorem sellStep_paired {held : List String} {acc acc' : Book × List Order} {sym : String}
    (h : InStep held acc acc') (hp : snapshot sym = none → prices sym = prices' sym) :
    Paired (InStep held)
      (sellStep c cfg snapshot prices longs tw cash equity ts F acc sym)
      (sellStep c cfg snapshot prices' longs tw cash equity ts' F acc' sym) := by
  obtain ⟨hbook, horders, hheld⟩ := h
  have hpx : (snapshot sym).getD ((prices sym).getD 0) =
      (snapshot sym).getD ((prices' sym).getD 0) := by
    cases hs : snapshot sym with
    | none => rw [hp hs]
    | some px => rfl
  unfold sellStep
  rw [hpx, Account.qty_untimed hbook.account, horders]
  dsimp only
  generalize (if sym ∈ longs then tw else 0) = target
  split_ifs
  · exact .ok ⟨hbook, horders, hheld⟩
  · refine Paired.bind_same fun order => ?_
    split
    · apply (hbook.sell sym _ ts ts' _).bind
      rintro b b' ⟨hb, hsub⟩
      exact .ok ⟨hb, rfl, fun s hs => hheld s (hsub s hs)⟩
    · exact .ok ⟨hbook, horders, hheld⟩

theorem buyStep_paired {acc acc' : Book × List Order} {sym : String}
    (hbook : acc.1.Same acc'.1) (horders : acc.2 = acc'.2) :
    Paired (fun r r' => r.1.Same r'.1 ∧ r.2 = r'.2)
      (buyStep c cfg snapshot tw cash equity ts F acc sym)
      (buyStep c cfg snapshot tw cash equity ts' F acc' sym) := by
  unfold buyStep
  rw [Account.qty_untimed hbook.account, horders]
  refine Paired.bind_same fun order => ?_
  split
  · apply (hbook.buy sym _ ts ts' _).bind
    intro b b' hb
    exact .ok ⟨hb, rfl⟩
  · exact .ok ⟨hbook, horders⟩

/-- Rebalancing reads the prices of held symbols only. -/
theorem rebalance_paired (h : book.Same book') (hp : ∀ s ∈ book.held, prices s = prices' s)
    (hlongs : ∀ s ∈ longs, (snapshot s).isSome = true) :
    Paired (fun r r' => r.1.Same r'.1 ∧ r.2 = r'.2)
      (rebalance c cfg snapshot prices longs ts F book)
      (rebalance c cfg snapshot prices' longs ts' F book') := by
  unfold rebalance
  refine Paired.bind_same fun weight => ?_
  apply (h.equity_paired hp).bind
  rintro equity _ rfl
  have hstart : InStep book.held (book, []) (book', []) := ⟨h, rfl, fun s hs => hs⟩
  rw [← h.held, ← Account.untimed_cash h.account]
  apply (Paired.foldlM (R := InStep book.held) ?_ hstart).bind
  · rintro r r' ⟨hr, horders, hheld⟩
    apply (hr.equity_paired fun s hs => hp s (hheld s hs)).bind
    rintro equity' _ rfl
    rw [← Account.untimed_cash hr.account]
    refine Paired.foldlM ?_ ⟨hr, horders⟩
    rintro s - acc acc' ⟨hbook, horders⟩
    exact buyStep_paired hbook horders
  · intro s hs acc acc' hacc
    refine sellStep_paired hacc fun hnone => ?_
    rcases (cfg.order.mem_union _ _ _).mp hs with hs | hs
    · exact hp s hs
    · have := hlongs s hs
      rw [hnone] at this
      cases this

end Rebalance

/-! ## Ranking -/

section Ranking

variable {F : Type} [PyFloat F]

open Strategy.PyFloat

/-- Comparisons of the returns are those of numbers, and no other return ties with a selected
one. -/
structure Sim.Decisive (cfg : XSConfig) (s : Sim F) : Prop where
  asymm : ∀ a ∈ s.scores cfg.lookback, ∀ b ∈ s.scores cfg.lookback,
    lt a.2 b.2 = true → lt b.2 a.2 = false
  trans : ∀ a ∈ s.scores cfg.lookback, ∀ b ∈ s.scores cfg.lookback, ∀ d ∈ s.scores cfg.lookback,
    lt a.2 b.2 = false → lt b.2 d.2 = false → lt a.2 d.2 = false
  apart : ∀ a ∈ s.scores cfg.lookback, a.1 ∈ s.longs cfg → ∀ b ∈ s.scores cfg.lookback,
    b.1 ≠ a.1 → lt a.2 b.2 = true ∨ lt b.2 a.2 = true

/-- The same observations, with the keys of the dicts in any order. -/
structure Sim.Alike (s s' : Sim F) : Prop where
  book : s.book.Same s'.book
  prices : s.prices = s'.prices
  curBar : s.curBar = s'.curBar
  observed : s.observed.Perm s'.observed
  snapshot : s.snapshot = s'.snapshot
  known : s.known.Perm s'.known
  history : s.history = s'.history
  orders : s.orders = s'.orders

theorem Sim.mem_scores {s : Sim F} {lookback : ℕ} {a : String × F} (h : a ∈ s.scores lookback) :
    (s.snapshot a.1).isSome = true ∧ lookbackReturn (s.history a.1) lookback = some a.2 := by
  obtain ⟨n, -, hn⟩ := List.mem_filterMap.mp h
  split_ifs at hn with hsome
  obtain ⟨r, hr, rfl⟩ := Option.map_eq_some_iff.mp hn
  exact ⟨hsome, hr⟩

theorem Sim.longs_observed {s : Sim F} {n : String} (h : n ∈ s.longs cfg) :
    (s.snapshot n).isSome = true := by
  obtain ⟨a, ha, rfl⟩ := List.mem_map.mp (List.mem_of_mem_take h)
  exact (mem_scores ((List.mem_insertionSort _).mp ha)).1

namespace Sim.Decisive

variable {s : Sim F} (hd : s.Decisive cfg)

include hd

theorem total {a b : String × F} (ha : a ∈ s.scores cfg.lookback)
    (hb : b ∈ s.scores cfg.lookback) :
    cfg.ranking.before a b = true ∨ cfg.ranking.before b a = true := by
  cases cfg.ranking with
  | reversal =>
    simp only [Ranking.before, Bool.not_eq_true']
    by_cases hlt : lt b.2 a.2 = true
    · exact Or.inr (hd.asymm b hb a ha hlt)
    · exact Or.inl (by simpa using hlt)
  | momentum =>
    simp only [Ranking.before, Bool.not_eq_true']
    by_cases hlt : lt a.2 b.2 = true
    · exact Or.inr (hd.asymm a ha b hb hlt)
    · exact Or.inl (by simpa using hlt)

theorem before_trans {a b d : String × F} (ha : a ∈ s.scores cfg.lookback)
    (hb : b ∈ s.scores cfg.lookback) (hd' : d ∈ s.scores cfg.lookback)
    (hab : cfg.ranking.before a b = true) (hbd : cfg.ranking.before b d = true) :
    cfg.ranking.before a d = true := by
  cases hr : cfg.ranking with
  | reversal =>
    simp only [hr, Ranking.before, Bool.not_eq_true'] at hab hbd ⊢
    exact hd.trans d hd' b hb a ha hbd hab
  | momentum =>
    simp only [hr, Ranking.before, Bool.not_eq_true'] at hab hbd ⊢
    exact hd.trans a ha b hb d hd' hab hbd

theorem eq_of_level {a b : String × F} (ha : a ∈ s.scores cfg.lookback) (hlong : a.1 ∈ s.longs cfg)
    (hb : b ∈ s.scores cfg.lookback) (hab : cfg.ranking.before a b = true)
    (hba : cfg.ranking.before b a = true) : a = b := by
  by_cases hname : b.1 = a.1
  · have ha' := (mem_scores ha).2
    have hb' := (mem_scores hb).2
    rw [hname, ha'] at hb'
    exact Prod.ext hname.symm (Option.some.inj hb')
  · have hapart := hd.apart a ha hlong b hb hname
    cases hr : cfg.ranking with
    | reversal =>
      simp only [hr, Ranking.before, Bool.not_eq_true'] at hab hba
      simp [hab, hba] at hapart
    | momentum =>
      simp only [hr, Ranking.before, Bool.not_eq_true'] at hab hba
      simp [hab, hba] at hapart

end Sim.Decisive

theorem Sim.Alike.scores_perm {s s' : Sim F} (h : s.Alike s') (lookback : ℕ) :
    (s.scores lookback).Perm (s'.scores lookback) := by
  unfold Sim.scores
  rw [← h.snapshot, ← h.history]
  exact h.known.filterMap _

/-- Without ties at the selection, the order in which the symbols arrived does not matter. -/
theorem Sim.Alike.longs_eq {s s' : Sim F} (h : s.Alike s') (hd : s.Decisive cfg) :
    s.longs cfg = s'.longs cfg := by
  have hscores := h.scores_perm cfg.lookback
  have hmem : ∀ a, a ∈ s'.scores cfg.lookback → a ∈ s.scores cfg.lookback :=
    fun a => hscores.mem_iff.mpr
  have hsorted := Frames.pairwise_insertionSort_of_mem (fun a ha b hb => hd.total ha hb)
    fun a ha b hb e he => hd.before_trans ha hb he
  have hsorted' := Frames.pairwise_insertionSort_of_mem
    (fun a ha b hb => hd.total (hmem a ha) (hmem b hb))
    fun a ha b hb e he => hd.before_trans (hmem a ha) (hmem b hb) (hmem e he)
  unfold Sim.longs rank
  rw [← List.map_take, ← List.map_take]
  congr 1
  refine Frames.take_eq_of_perm ?_ hsorted hsorted' ?_
  · exact (List.perm_insertionSort _ _).trans (hscores.trans (List.perm_insertionSort _ _).symm)
  · intro a ha b hb hab hba
    have hmema := (List.mem_insertionSort _).mp (List.mem_of_mem_take ha)
    have hlong : a.1 ∈ s.longs cfg := by
      unfold Sim.longs rank
      rw [← List.map_take]
      exact List.mem_map_of_mem ha
    exact hd.eq_of_level hmema hlong ((List.mem_insertionSort _).mp hb) hab hba

end Ranking

/-! ## Bars -/

section Bars

variable {F : Type} {s s' s'' : Sim F} {t t' : Tick}

namespace Sim

open Strategy.PyFloat

/-- `_on_bar_close` returns before it reads a price. -/
def Idle [PyFloat F] (cfg : XSConfig) (s : Sim F) : Prop :=
  s.observed.length < 2 ∨ s.longs cfg = []

section Close

variable [PyFloat F] {prices : String → Option ℚ} {ts : ℚ}

theorem onBarClose_idle (h : s.Idle cfg) : s.onBarClose c cfg prices ts = .ok (s.book, []) :=
  if_pos h

theorem onBarClose_busy (h : ¬ s.Idle cfg) :
    s.onBarClose c cfg prices ts =
      rebalance c cfg s.snapshot prices (s.longs cfg) ts F s.book :=
  if_neg h

end Close

/-- The price of the tick is known already, or its symbol is not held. -/
def Unpeeked (s : Sim F) (t : Tick) : Prop :=
  t.symbol ∉ s.book.held ∨ s.prices t.symbol = some t.price

theorem Unpeeked.update_eq (h : s.Unpeeked t) :
    ∀ n ∈ s.book.held, Function.update s.prices t.symbol (some t.price) n = s.prices n := by
  intro n hn
  by_cases hsym : n = t.symbol
  · subst hsym
    rw [Function.update_self, h.resolve_left (not_not.mpr hn)]
  · rw [Function.update_of_ne hsym]

namespace Alike

theorem refl (s : Sim F) : s.Alike s :=
  ⟨⟨rfl, rfl⟩, rfl, rfl, List.Perm.refl _, rfl, List.Perm.refl _, rfl, rfl⟩

theorem trans (h : s.Alike s') (h' : s'.Alike s'') : s.Alike s'' where
  book := ⟨h.book.account.trans h'.book.account, h.book.held.trans h'.book.held⟩
  prices := h.prices.trans h'.prices
  curBar := h.curBar.trans h'.curBar
  observed := h.observed.trans h'.observed
  snapshot := h.snapshot.trans h'.snapshot
  known := h.known.trans h'.known
  history := h.history.trans h'.history
  orders := h.orders.trans h'.orders

variable [PyFloat F]

theorem longs_eq_nil_iff (h : s.Alike s') : s.longs cfg = [] ↔ s'.longs cfg = [] := by
  have hlength : (s.longs cfg).length = (s'.longs cfg).length := by
    unfold longs rank
    simp only [List.length_take, List.length_map, List.length_insertionSort,
      (h.scores_perm cfg.lookback).length_eq]
  rw [← List.length_eq_zero_iff, hlength, List.length_eq_zero_iff]

theorem idle_iff (h : s.Alike s') : s.Idle cfg ↔ s'.Idle cfg := by
  unfold Idle
  rw [h.observed.length_eq, h.longs_eq_nil_iff]

theorem close (h : s.Alike s') (hc : ¬ s.Idle cfg → s.Unpeeked t ∧ s.Decisive cfg)
    (hc' : ¬ s'.Idle cfg → s'.Unpeeked t' ∧ s'.Decisive cfg) :
    Paired Alike (s.close c cfg t) (s'.close c cfg t') := by
  have hbar : Paired (fun r r' => r.1.Same r'.1 ∧ r.2 = r'.2)
      (s.onBarClose c cfg (Function.update s.prices t.symbol (some t.price)) t.ts)
      (s'.onBarClose c cfg (Function.update s'.prices t'.symbol (some t'.price)) t'.ts) := by
    by_cases hidle : s.Idle cfg
    · rw [onBarClose_idle hidle, onBarClose_idle (h.idle_iff.mp hidle)]
      exact .ok ⟨h.book, rfl⟩
    · have hidle' : ¬ s'.Idle cfg := fun hi => hidle (h.idle_iff.mpr hi)
      obtain ⟨ht, hd⟩ := hc hidle
      obtain ⟨ht', -⟩ := hc' hidle'
      rw [onBarClose_busy hidle, onBarClose_busy hidle', ← h.longs_eq hd, ← h.snapshot]
      refine rebalance_paired h.book (fun n hn => ?_) fun n hn => longs_observed hn
      rw [ht.update_eq n hn, ht'.update_eq n (h.book.held ▸ hn), h.prices]
  unfold Sim.close
  apply hbar.bind
  rintro r r' ⟨hbook, horders⟩
  refine .ok ⟨hbook, h.prices, h.curBar, List.Perm.refl _, rfl, h.known, h.history, ?_⟩
  rw [h.orders, horders]

theorem observe (h : s.Alike s') (t : Tick) : (s.observe cfg t).Alike (s'.observe cfg t) where
  book := h.book
  prices := by
    unfold Sim.observe
    rw [h.prices]
  curBar := rfl
  observed := by
    unfold Sim.observe
    dsimp only
    by_cases hm : t.symbol ∈ s.observed
    · rw [if_pos hm, if_pos (h.observed.mem_iff.mp hm)]
      exact h.observed
    · rw [if_neg hm, if_neg fun hm' => hm (h.observed.mem_iff.mpr hm')]
      exact h.observed.append_right _
  snapshot := by
    unfold Sim.observe
    rw [h.snapshot]
  known := by
    unfold Sim.observe
    dsimp only
    by_cases hm : t.symbol ∈ s.known
    · rw [if_pos hm, if_pos (h.known.mem_iff.mp hm)]
      exact h.known
    · rw [if_neg hm, if_neg fun hm' => hm (h.known.mem_iff.mpr hm')]
      exact h.known.append_right _
  history := by
    unfold Sim.observe
    rw [h.history]
  orders := h.orders

theorem foldl_observe (h : s.Alike s') (bar : List Tick) :
    (bar.foldl (Sim.observe cfg) s).Alike (bar.foldl (Sim.observe cfg) s') := by
  induction bar generalizing s s' with
  | nil => exact h
  | cons t bar ih => exact ih (h.observe t)

end Alike

variable [PyFloat F]

theorem insert_comm (l : List String) {x y : String} (hxy : x ≠ y) :
    (if y ∈ (if x ∈ l then l else l ++ [x]) then (if x ∈ l then l else l ++ [x])
      else (if x ∈ l then l else l ++ [x]) ++ [y]).Perm
    (if x ∈ (if y ∈ l then l else l ++ [y]) then (if y ∈ l then l else l ++ [y])
      else (if y ∈ l then l else l ++ [y]) ++ [x]) := by
  by_cases hx : x ∈ l <;> by_cases hy : y ∈ l <;>
    simp [hx, hy, hxy, hxy.symm, List.append_assoc]
  exact List.Perm.append_left l (List.Perm.swap _ _ _)

theorem observe_comm (hsym : t.symbol ≠ t'.symbol) (hbar : barKey cfg t.ts = barKey cfg t'.ts) :
    ((s.observe cfg t).observe cfg t').Alike ((s.observe cfg t').observe cfg t) where
  book := ⟨rfl, rfl⟩
  prices := Function.update_comm hsym _ _ _
  curBar := congrArg some hbar.symm
  observed := insert_comm s.observed hsym
  snapshot := Function.update_comm hsym _ _ _
  known := insert_comm s.known hsym
  history := by
    unfold Sim.observe
    dsimp only
    rw [Function.update_of_ne hsym.symm, Function.update_of_ne hsym]
    exact Function.update_comm hsym _ _ _
  orders := rfl

/-- A bar leaves the same whatever the order of its ticks. -/
theorem foldl_observe_perm {bar bar' : List Tick} (hp : bar.Perm bar')
    (hnodup : (bar.map Tick.symbol).Nodup)
    (hkey : ∀ x ∈ bar, ∀ y ∈ bar, barKey cfg x.ts = barKey cfg y.ts) (h : s.Alike s') :
    (bar.foldl (observe cfg) s).Alike (bar'.foldl (observe cfg) s') := by
  induction hp generalizing s s' with
  | nil => exact h
  | cons x _ ih =>
    exact ih (List.nodup_cons.mp hnodup).2
      (fun y hy z hz => hkey y (List.mem_cons_of_mem _ hy) z (List.mem_cons_of_mem _ hz))
      (h.observe x)
  | swap x y l =>
    have hsym : y.symbol ≠ x.symbol := by
      have := (List.nodup_cons.mp hnodup).1
      simp only [List.map_cons, List.mem_cons, not_or] at this
      exact this.1
    have hxy := hkey y (by simp) x (by simp)
    have hstart := (observe_comm (s := s) hsym hxy).trans ((h.observe x).observe y)
    exact hstart.foldl_observe l
  | trans hp _ ih ih' =>
    refine (ih hnodup hkey (Alike.refl s)).trans (ih' ?_ ?_ h)
    · exact (hp.map _).nodup_iff.mp hnodup
    · intro x hx y hy
      exact hkey x (hp.mem_iff.mpr hx) y (hp.mem_iff.mpr hy)

/-! ## Runs -/

variable {bar bar' : List Tick} {bars bars' : List (List Tick)}

/-- Whenever a bar ends and there is something to trade, the tick that ends it reveals nothing,
and the ranking is decisive. -/
def Clean (c : Context) (cfg : XSConfig) : Sim F → List Tick → Prop
  | _, [] => True
  | s, t :: ts => (s.Closes cfg t → ¬ s.Idle cfg → s.Unpeeked t ∧ s.Decisive cfg) ∧
      ∀ s', s.onTick c cfg t = .ok s' → Clean c cfg s' ts

/-- The bars of a stream: one tick for a symbol in each, and the bars in the order of time. -/
structure InBars (cfg : XSConfig) (bars : List (List Tick)) : Prop where
  nodup : ∀ bar ∈ bars, (bar.map Tick.symbol).Nodup
  same : ∀ bar ∈ bars, ∀ x ∈ bar, ∀ y ∈ bar, barKey cfg x.ts = barKey cfg y.ts
  sorted : bars.Pairwise fun bar bar' => ∀ x ∈ bar, ∀ y ∈ bar', barKey cfg x.ts < barKey cfg y.ts

instance (s : Sim F) : Decidable (s.Decisive cfg) :=
  decidable_of_iff ((∀ a ∈ s.scores cfg.lookback, ∀ b ∈ s.scores cfg.lookback,
      lt a.2 b.2 = true → lt b.2 a.2 = false) ∧
    (∀ a ∈ s.scores cfg.lookback, ∀ b ∈ s.scores cfg.lookback, ∀ d ∈ s.scores cfg.lookback,
      lt a.2 b.2 = false → lt b.2 d.2 = false → lt a.2 d.2 = false) ∧
    ∀ a ∈ s.scores cfg.lookback, a.1 ∈ s.longs cfg → ∀ b ∈ s.scores cfg.lookback,
      b.1 ≠ a.1 → lt a.2 b.2 = true ∨ lt b.2 a.2 = true)
    ⟨fun h => ⟨h.1, h.2.1, h.2.2⟩, fun h => ⟨h.asymm, h.trans, h.apart⟩⟩

instance (s : Sim F) : Decidable (s.Idle cfg) := inferInstanceAs (Decidable (_ ∨ _))

instance (s : Sim F) (t : Tick) : Decidable (s.Unpeeked t) :=
  inferInstanceAs (Decidable (_ ∨ _))

instance decidableClean : ∀ (s : Sim F) (ts : List Tick), Decidable (Clean c cfg s ts)
  | _, [] => isTrue trivial
  | s, t :: ts =>
    match h : s.onTick c cfg t with
    | .error _ =>
      decidable_of_iff (s.Closes cfg t → ¬ s.Idle cfg → s.Unpeeked t ∧ s.Decisive cfg)
        ⟨fun hc => ⟨hc, fun s' hs' => by rw [h] at hs'; cases hs'⟩, fun hc => hc.1⟩
    | .ok s₁ =>
      have := decidableClean s₁ ts
      decidable_of_iff
        ((s.Closes cfg t → ¬ s.Idle cfg → s.Unpeeked t ∧ s.Decisive cfg) ∧ Clean c cfg s₁ ts)
        ⟨fun hc => ⟨hc.1, fun s' hs' => by rw [h] at hs'; cases hs'; exact hc.2⟩,
          fun hc => ⟨hc.1, hc.2 s₁ h⟩⟩

theorem run_append {ts ts' : List Tick} :
    s.run c cfg (ts ++ ts') = s.run c cfg ts >>= fun s' => s'.run c cfg ts' := by
  unfold run
  rw [List.foldlM_append]

theorem Clean.append {ts ts' : List Tick} (h : Clean c cfg s (ts ++ ts'))
    (hs : s.run c cfg ts = .ok s') : Clean c cfg s' ts' := by
  induction ts generalizing s with
  | nil =>
    obtain rfl : s = s' := Except.ok.inj hs
    exact h
  | cons t ts ih =>
    obtain ⟨s₁, h₁, hs₁⟩ := bind_ok_iff.mp hs
    exact ih (h.2 s₁ h₁) hs₁

/-- Within a bar nothing is traded. -/
theorem run_same_bar {ts : List Tick} (h : ∀ t ∈ ts, s.curBar = some (barKey cfg t.ts)) :
    s.run c cfg ts = .ok (ts.foldl (observe cfg) s) := by
  induction ts generalizing s with
  | nil => rfl
  | cons t ts ih =>
    have hkey := h t List.mem_cons_self
    have hopen : ¬ s.Closes cfg t := by
      rintro ⟨k, hk, hne⟩
      exact hne (Option.some.inj ((Option.mem_def.mp hk).symm.trans hkey))
    have htick : s.onTick c cfg t = .ok (s.observe cfg t) := by
      rw [onTick, closing, if_neg hopen]
      rfl
    change s.onTick c cfg t >>= (fun s' => s'.run c cfg ts) = _
    rw [htick]
    refine ih fun t' ht' => ?_
    exact hkey.symm.trans (h t' (List.mem_cons_of_mem _ ht'))

/-- The first tick of a bar ends the bar before. -/
theorem run_bar (hkey : ∀ x ∈ t :: bar, ∀ y ∈ t :: bar, barKey cfg x.ts = barKey cfg y.ts) :
    s.run c cfg (t :: bar) = s.closing c cfg t >>= fun s' =>
      .ok ((t :: bar).foldl (observe cfg) s') := by
  change s.onTick c cfg t >>= (fun s' => s'.run c cfg bar) = _
  unfold onTick
  rw [bind_assoc]
  congr 1
  funext s'
  change (s'.observe cfg t).run c cfg bar = _
  rw [run_same_bar]
  · rfl
  · intro x hx
    exact congrArg some (hkey t List.mem_cons_self x (List.mem_cons_of_mem _ hx))

theorem onTick_curBar (h : s.onTick c cfg t = .ok s') : s'.curBar = some (barKey cfg t.ts) := by
  obtain ⟨s₁, -, hs₁⟩ := bind_ok_iff.mp h
  rw [← Except.ok.inj hs₁]
  rfl

theorem run_curBar {ts : List Tick} (h : s.run c cfg ts = .ok s') :
    ∀ k ∈ s'.curBar, k ∈ s.curBar ∨ ∃ x ∈ ts, k = barKey cfg x.ts := by
  induction ts generalizing s with
  | nil =>
    obtain rfl : s = s' := Except.ok.inj h
    exact fun k hk => Or.inl hk
  | cons t ts ih =>
    obtain ⟨s₁, h₁, hs₁⟩ := bind_ok_iff.mp h
    intro k hk
    right
    rcases ih hs₁ k hk with hk | ⟨x, hx, hkx⟩
    · rw [onTick_curBar h₁] at hk
      exact ⟨t, List.mem_cons_self, (Option.some.inj hk).symm⟩
    · exact ⟨x, List.mem_cons_of_mem _ hx, hkx⟩

theorem InBars.tail (h : InBars cfg (bar :: bars)) : InBars cfg bars where
  nodup b hb := h.nodup b (List.mem_cons_of_mem _ hb)
  same b hb := h.same b (List.mem_cons_of_mem _ hb)
  sorted := (List.pairwise_cons.mp h.sorted).2

theorem InBars.later (h : InBars cfg (bar :: bars))
    (hbar : ∀ k ∈ s.curBar, ∀ b ∈ bar :: bars, ∀ x ∈ b, k < barKey cfg x.ts)
    (hrun : s.run c cfg bar = .ok s') :
    ∀ k ∈ s'.curBar, ∀ b ∈ bars, ∀ x ∈ b, k < barKey cfg x.ts := by
  intro k hk b hb x hx
  rcases run_curBar hrun k hk with hk | ⟨y, hy, rfl⟩
  · exact hbar k hk b (List.mem_cons_of_mem _ hb) x hx
  · exact (List.pairwise_cons.mp h.sorted).1 b hb y hy x hx

/-- The end of a bar, in two runs that may go on differently. -/
theorem closing_paired (h : s.Alike s') (hbar : ∀ k ∈ s.curBar, k < barKey cfg t.ts)
    (hbar' : ∀ k ∈ s.curBar, k < barKey cfg t'.ts)
    (hc : s.Closes cfg t → ¬ s.Idle cfg → s.Unpeeked t ∧ s.Decisive cfg)
    (hc' : s'.Closes cfg t' → ¬ s'.Idle cfg → s'.Unpeeked t' ∧ s'.Decisive cfg) :
    Paired Alike (s.closing c cfg t) (s'.closing c cfg t') := by
  have hiff : ∀ u : Tick, (∀ k ∈ s.curBar, k < barKey cfg u.ts) →
      (s.Closes cfg u ↔ s.curBar.isSome = true) := by
    intro u hu
    constructor
    · rintro ⟨k, hk, -⟩
      rw [Option.mem_def.mp hk]
      rfl
    · intro hsome
      obtain ⟨k, hk⟩ := Option.isSome_iff_exists.mp hsome
      exact ⟨k, hk, (hu k hk).ne⟩
  have hiff' : s'.Closes cfg t' ↔ s.Closes cfg t' := by
    unfold Closes
    rw [h.curBar]
  unfold closing
  by_cases hclose : s.Closes cfg t
  · have hclose' := hiff'.mpr ((hiff t' hbar').mpr ((hiff t hbar).mp hclose))
    rw [if_pos hclose, if_pos hclose']
    exact h.close (hc hclose) (hc' hclose')
  · have hclose' : ¬ s'.Closes cfg t' := fun hclose' =>
      hclose ((hiff t hbar).mpr ((hiff t' hbar').mp (hiff'.mp hclose')))
    rw [if_neg hclose, if_neg hclose']
    exact .ok h

/-- What has been traded: the account and the orders. -/
def Traded (s s' : Sim F) : Prop :=
  s.book.account.untimed = s'.book.account.untimed ∧ s.orders = s'.orders

theorem run_paired (hp : List.Forall₂ List.Perm bars bars') (hs : InBars cfg (bars ++ [[t]]))
    (hs' : InBars cfg (bars' ++ [[t']])) (h : s.Alike s')
    (hbar : ∀ k ∈ s.curBar, ∀ bar ∈ bars ++ [[t]], ∀ x ∈ bar, k < barKey cfg x.ts)
    (hbar' : ∀ k ∈ s.curBar, ∀ bar ∈ bars' ++ [[t']], ∀ x ∈ bar, k < barKey cfg x.ts)
    (hc : Clean c cfg s (bars.flatten ++ [t])) (hc' : Clean c cfg s' (bars'.flatten ++ [t'])) :
    Paired Traded (s.run c cfg (bars.flatten ++ [t])) (s'.run c cfg (bars'.flatten ++ [t'])) := by
  induction hp generalizing s s' with
  | nil =>
    have hclosing : Paired Alike (s.closing c cfg t) (s'.closing c cfg t') :=
      closing_paired h (fun k hk => hbar k hk [t] (by simp) t (by simp))
        (fun k hk => hbar' k hk [t'] (by simp) t' (by simp)) hc.1 hc'.1
    change Paired Traded (s.run c cfg [t]) (s'.run c cfg [t'])
    rw [run_bar (by simp), run_bar (by simp)]
    apply hclosing.bind
    intro s₁ s₁' h₁
    exact .ok ⟨h₁.book.account, h₁.orders⟩
  | @cons bar bar' bars bars' hperm hp ih =>
    rw [List.flatten_cons, List.append_assoc] at hc
    rw [List.flatten_cons, List.append_assoc] at hc'
    rw [List.flatten_cons, List.append_assoc, List.flatten_cons, List.append_assoc, run_append,
      run_append]
    have hbarPaired : Paired Alike (s.run c cfg bar) (s'.run c cfg bar') := by
      cases bar with
      | nil =>
        obtain rfl := hperm.nil_eq
        exact .ok h
      | cons u us =>
        cases bar' with
        | nil => cases hperm.eq_nil
        | cons u' us' =>
          have hclosing : Paired Alike (s.closing c cfg u) (s'.closing c cfg u') :=
            closing_paired h (fun k hk => hbar k hk _ List.mem_cons_self u List.mem_cons_self)
              (fun k hk => hbar' k hk _ List.mem_cons_self u' List.mem_cons_self) hc.1 hc'.1
          rw [run_bar (hs.same _ List.mem_cons_self), run_bar (hs'.same _ List.mem_cons_self)]
          apply hclosing.bind
          intro s₁ s₁' h₁
          exact .ok (foldl_observe_perm hperm (hs.nodup _ List.mem_cons_self)
            (hs.same _ List.mem_cons_self) h₁)
    apply hbarPaired.bind_of_eq
    intro s₁ s₁' h₁ h₁' halike
    have hlater' := hs'.later (s := s') (h.curBar ▸ hbar') h₁'
    rw [← halike.curBar] at hlater'
    exact ih hs.tail hs'.tail halike (hs.later hbar h₁) hlater' (hc.append h₁) (hc'.append h₁')

/-- Two streams with the same ticks in the bars up to one, in any order within each bar, and with
any next tick: the account and the orders up to the end of that bar are the same, if at each end
of a bar with something to trade the next tick reveals no new price of a held symbol and the
ranking is not tied at the selection. -/
theorem no_look_ahead {cash : ℚ} (hp : List.Forall₂ List.Perm bars bars')
    (hs : InBars cfg (bars ++ [[t]])) (hs' : InBars cfg (bars' ++ [[t']]))
    (hc : Clean c cfg (init F cash) (bars.flatten ++ [t]))
    (hc' : Clean c cfg (init F cash) (bars'.flatten ++ [t'])) :
    Paired Traded ((init F cash).run c cfg (bars.flatten ++ [t]))
      ((init F cash).run c cfg (bars'.flatten ++ [t'])) :=
  run_paired hp hs hs' (Alike.refl _) nofun nofun hc hc'

end Sim

end Bars

section Demo

attribute [local instance] PyFloat.rational

theorem mem_demoUnion (a b : List String) (s : String) :
    s ∈ (a ++ b).dedup ↔ s ∈ a ∨ s ∈ b := by
  rw [List.mem_dedup, List.mem_append]

/-- Losers over one bar, one of them at a time, without slippage. -/
def demoConfig : XSConfig where
  ranking := .reversal
  barSec := 60
  lookback := 1
  topN := 1
  band := 3 / 10
  maxWeight := 1 / 5
  order := ⟨fun a b => (a ++ b).dedup, mem_demoUnion⟩
  fills := ⟨5 / 10000, 0⟩

def demoBar (minute : ℤ) (a b : ℚ) : List Tick :=
  [⟨"KRW-A", a, minute * 60⟩, ⟨"KRW-B", b, minute * 60⟩]

/-- The first symbol falls twice; it is bought at the end of the second bar. -/
def demoBars : List (List Tick) := [demoBar 0 100 100, demoBar 1 90 100, demoBar 2 45 100]

def demoNext (symbol : String) (price : ℚ) : Tick := ⟨symbol, price, 180⟩

def demoOrders (t : Tick) : Option (List Order) :=
  ((Sim.init ℚ 1000000).run Context.default demoConfig (demoBars.flatten ++ [t])).toOption.map
    Sim.orders

/-- The second symbol is not held: its next price does not matter, nor does the order in a bar. -/
theorem no_look_ahead_demo : Paired Sim.Traded
    ((Sim.init ℚ 1000000).run Context.default demoConfig
      (demoBars.flatten ++ [demoNext "KRW-B" 100]))
    ((Sim.init ℚ 1000000).run Context.default demoConfig
      ((demoBars.map List.reverse).flatten ++ [demoNext "KRW-B" 7])) := by
  refine Sim.no_look_ahead ?_ ⟨?_, ?_, ?_⟩ ⟨?_, ?_, ?_⟩ ?_ ?_
  · exact List.forall₂_map_right_iff.mpr
      (List.forall₂_same.mpr fun bar _ => bar.reverse_perm.symm)
  all_goals decide +kernel

/-- The price that the held symbol has after the bar decides how much of it is bought for the
bar. -/
theorem next_price_moves_order :
    demoOrders (demoNext "KRW-A" 45) = some [⟨.buy, "KRW-A", 222111166527 / 100000000, 90⟩,
      ⟨.buy, "KRW-A", 177777733289 / 100000000, 45⟩] ∧
    demoOrders (demoNext "KRW-A" 200) = some [⟨.buy, "KRW-A", 222111166527 / 100000000, 90⟩,
      ⟨.buy, "KRW-A", 82677795321 / 25000000, 45⟩] ∧
    ¬ ∀ (cfg : XSConfig) (cash : ℚ) (bars bars' : List (List Tick)) (t t' : Tick),
      List.Forall₂ List.Perm bars bars' → Sim.InBars cfg (bars ++ [[t]]) →
        Sim.InBars cfg (bars' ++ [[t']]) →
          Paired Sim.Traded ((Sim.init ℚ cash).run Context.default cfg (bars.flatten ++ [t]))
            ((Sim.init ℚ cash).run Context.default cfg (bars'.flatten ++ [t'])) := by
  have hlow : demoOrders (demoNext "KRW-A" 45) =
      some [⟨.buy, "KRW-A", 222111166527 / 100000000, 90⟩,
        ⟨.buy, "KRW-A", 177777733289 / 100000000, 45⟩] := by decide +kernel
  have hhigh : demoOrders (demoNext "KRW-A" 200) =
      some [⟨.buy, "KRW-A", 222111166527 / 100000000, 90⟩,
        ⟨.buy, "KRW-A", 82677795321 / 25000000, 45⟩] := by decide +kernel
  refine ⟨hlow, hhigh, ?_⟩
  intro h
  have hpaired := h demoConfig 1000000 demoBars demoBars (demoNext "KRW-A" 45)
    (demoNext "KRW-A" 200) (List.forall₂_same.mpr fun bar _ => List.Perm.refl bar)
    ⟨by decide +kernel, by decide +kernel, by decide +kernel⟩
    ⟨by decide +kernel, by decide +kernel, by decide +kernel⟩
  have horders : demoOrders (demoNext "KRW-A" 45) = demoOrders (demoNext "KRW-A" 200) :=
    hpaired.toOption_map_eq fun _ _ hr => hr.2
  rw [hlow, hhigh] at horders
  exact absurd horders (by decide +kernel)

end Demo

end QuantTrader.Backtest
