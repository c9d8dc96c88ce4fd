import QuantTrader.Strategy.LiveEnsemble
import QuantTrader.Transition.Run

/-! # Live signals and replayed signals

One symbol of the ensemble moves by its own bars only. Fed live from the start,
the signals see every completed day once; a primed symbol keeps its last primed
bar open, and its first later tick feeds that bar again.
-/

namespace QuantTrader.Strategy

open Transition

variable {F : Type} [PyFloat F] {le : LiveEnsemble F} {symbol other : String} {t : Tick}
  {bars : List Bar} {fed : List ℚ} {ticks : List Tick} {history : String → List Bar}
  {symbols : List String} {specs : List (String × TrendSignal F)}

/-! ## Completed days -/

/-- The closes of the days that a later bar has completed. -/
def completed : List Bar → List ℚ
  | a :: b :: bars => if a.1 = b.1 then completed (b :: bars) else a.2 :: completed (b :: bars)
  | _ => []

theorem completed_snoc (bars : List Bar) (a b : Bar) : completed (bars ++ [a, b]) =
    completed (bars ++ [a]) ++ if a.1 = b.1 then [] else [a.2] := by
  induction bars with
  | nil => simp [completed]
  | cons c bars ih =>
    cases bars with
    | nil =>
      simp only [List.nil_append, List.cons_append, completed] at ih ⊢
      split_ifs <;> simp
    | cons d bars =>
      simp only [List.cons_append, completed] at ih ⊢
      rw [ih]
      split_ifs <;> simp

/-- The bars of the ticks of one symbol. -/
def barsOf (symbol : String) (ticks : List Tick) : List Bar :=
  (ticks.filter fun t => t.symbol = symbol).map Tick.bar

theorem barsOf_snoc (symbol : String) (ticks : List Tick) (t : Tick) :
    barsOf symbol (ticks ++ [t]) =
      barsOf symbol ticks ++ if t.symbol = symbol then [t.bar] else [] := by
  unfold barsOf
  rw [List.filter_append, List.map_append]
  by_cases h : t.symbol = symbol
  · simp [h]
  · simp [h]

/-! ## One symbol -/

/-- What the ensemble keeps of a symbol outside its signals: the open bar and the closes fed. -/
abbrev Watch := Option Bar × List ℚ

/-- A bar of the symbol closes the open one when its day is later. -/
def watch (w : Watch) (b : Bar) : Watch :=
  match w.1 with
  | none => (some b, w.2)
  | some cur =>
    if b.1 ≤ cur.1 then (if b.1 = cur.1 then some b else some cur, w.2)
    else (some b, w.2 ++ [cur.2])

namespace LiveEnsemble

def view (le : LiveEnsemble F) (symbol : String) : Watch := (le.current symbol, le.fed symbol)

theorem view_targets (close : ℚ) : (le.targets symbol close).1.view symbol =
    (le.current symbol, le.fed symbol ++ [close]) := by
  simp [view, targets]

theorem view_targets_of_ne (close : ℚ) (h : other ≠ symbol) :
    (le.targets symbol close).1.view other = le.view other := by
  simp [view, targets, h]

omit [PyFloat F] in
theorem view_setDay (b : Bar) : (le.setDay symbol b).view symbol = (some b, le.fed symbol) := by
  simp [view, setDay]

omit [PyFloat F] in
theorem view_setDay_of_ne (b : Bar) (h : other ≠ symbol) :
    (le.setDay symbol b).view other = le.view other := by
  simp [view, setDay, h]

theorem onTick_cases (le : LiveEnsemble F) (t : Tick) :
    (t.symbol ∉ le.symbols ∧ le.onTick t = (le, none)) ∨
    (t.symbol ∈ le.symbols ∧ le.current t.symbol = none ∧
      le.onTick t = (le.setDay t.symbol t.bar, none)) ∨
    (t.symbol ∈ le.symbols ∧ ∃ cur, le.current t.symbol = some cur ∧ t.bar.1 < cur.1 ∧
      le.onTick t = (le, none)) ∨
    (t.symbol ∈ le.symbols ∧ ∃ cur, le.current t.symbol = some cur ∧ t.bar.1 = cur.1 ∧
      le.onTick t = (le.setDay t.symbol t.bar, none)) ∨
    (t.symbol ∈ le.symbols ∧ ∃ cur, le.current t.symbol = some cur ∧ cur.1 < t.bar.1 ∧
      le.onTick t = ((le.targets t.symbol cur.2).1.setDay t.symbol t.bar,
        some (t.symbol, cur.1, (le.targets t.symbol cur.2).2))) := by
  unfold onTick
  by_cases hin : t.symbol ∈ le.symbols
  · rw [if_neg (not_not.mpr hin)]
    right
    cases hcur : le.current t.symbol with
    | none => exact Or.inl ⟨hin, rfl, rfl⟩
    | some cur =>
      right
      rcases lt_trichotomy t.bar.1 cur.1 with hlt | heq | hgt
      · exact Or.inl ⟨hin, cur, rfl, hlt, by simp [hlt.le, hlt.ne]⟩
      · exact Or.inr (Or.inl ⟨hin, cur, rfl, heq, by simp [heq]⟩)
      · exact Or.inr (Or.inr ⟨hin, cur, rfl, hgt, by simp [hgt]⟩)
  · exact Or.inl ⟨hin, by rw [if_pos hin]⟩

theorem symbols_onTick (le : LiveEnsemble F) (t : Tick) : (le.onTick t).1.symbols = le.symbols := by
  rcases onTick_cases le t with ⟨-, h⟩ | ⟨-, -, h⟩ | ⟨-, _, -, -, h⟩ | ⟨-, _, -, -, h⟩ | ⟨-, _, -, -, h⟩
  all_goals exact congrArg (fun r => r.1.symbols) h

theorem view_onTick (hin : t.symbol ∈ le.symbols) :
    (le.onTick t).1.view t.symbol = watch (le.view t.symbol) t.bar := by
  unfold watch
  rcases onTick_cases le t with ⟨hn, -⟩ | ⟨-, hcur, h⟩ | ⟨-, cur, hcur, hlt, h⟩ |
    ⟨-, cur, hcur, heq, h⟩ | ⟨-, cur, hcur, hgt, h⟩
  · exact absurd hin hn
  · rw [h, view_setDay]
    simp [view, hcur]
  · rw [h]
    simp [view, hcur, hlt.le, hlt.ne]
  · rw [h, view_setDay]
    simp [view, hcur, heq]
  · rw [h, view_setDay]
    simp [view, hcur, hgt.not_ge, targets]

theorem view_onTick_of_ne (hne : other ≠ t.symbol) :
    (le.onTick t).1.view other = le.view other := by
  rcases onTick_cases le t with ⟨-, h⟩ | ⟨-, -, h⟩ | ⟨-, _, -, -, h⟩ | ⟨-, _, -, -, h⟩ | ⟨-, _, -, -, h⟩
  · rw [h]
  · rw [h, view_setDay_of_ne _ hne]
  · rw [h]
  · rw [h, view_setDay_of_ne _ hne]
  · rw [h, view_setDay_of_ne _ hne, view_targets_of_ne _ hne]

theorem symbols_live (le : LiveEnsemble F) (ticks : List Tick) :
    (le.live ticks).symbols = le.symbols := by
  induction ticks using List.reverseRecOn with
  | nil => rfl
  | append_singleton ticks t ih => rw [live_snoc, symbols_onTick, ih]

/-- One symbol of the ensemble moves by its own bars. -/
theorem view_live (h : symbol ∈ le.symbols) (ticks : List Tick) :
    (le.live ticks).view symbol = (barsOf symbol ticks).foldl watch (le.view symbol) := by
  induction ticks using List.reverseRecOn with
  | nil => rfl
  | append_singleton ticks t ih =>
    rw [live_snoc, barsOf_snoc, List.foldl_append, ← ih]
    by_cases ht : t.symbol = symbol
    · subst ht
      rw [view_onTick (by rwa [symbols_live]), if_pos rfl]
      rfl
    · rw [view_onTick_of_ne (Ne.symm ht), if_neg ht]
      rfl

/-! ## Priming -/

theorem warm_snoc (symbol : String) (le : LiveEnsemble F) (bars : List Bar) (b : Bar) :
    le.warm symbol (bars ++ [b]) = (((le.warm symbol bars).1.targets symbol b.2).1,
      some ((le.warm symbol bars).1.targets symbol b.2).2) := by
  simp [warm, List.foldl_append]

theorem view_warm (symbol : String) (le : LiveEnsemble F) (bars : List Bar) :
    (le.warm symbol bars).1.view symbol =
      (le.current symbol, le.fed symbol ++ bars.map Prod.snd) := by
  induction bars using List.reverseRecOn with
  | nil => simp [warm, view]
  | append_singleton bars b ih =>
    rw [warm_snoc, view_targets]
    obtain ⟨hcur, hfed⟩ := Prod.mk.inj ih
    rw [hcur, hfed]
    simp

theorem view_warm_of_ne (h : other ≠ symbol) (bars : List Bar) :
    (le.warm symbol bars).1.view other = le.view other := by
  induction bars using List.reverseRecOn with
  | nil => rfl
  | append_singleton bars b ih => rw [warm_snoc, view_targets_of_ne _ h, ih]

theorem primeSymbol_snoc (symbol : String) (le : LiveEnsemble F) (bars : List Bar) (b : Bar) :
    le.primeSymbol symbol (bars ++ [b]) =
      ((le.warm symbol (bars ++ [b])).1.setDay symbol b,
        some (symbol, b.1, ((le.warm symbol bars).1.targets symbol b.2).2)) := by
  unfold primeSymbol
  rw [warm_snoc, List.getLast?_append_of_ne_nil _ (by simp)]
  rfl

@[simp] theorem primeSymbol_nil (symbol : String) (le : LiveEnsemble F) :
    le.primeSymbol symbol [] = (le, none) := rfl

theorem view_primeSymbol (h : le.current symbol = none) (bars : List Bar) :
    (le.primeSymbol symbol bars).1.view symbol =
      (bars.getLast?, le.fed symbol ++ bars.map Prod.snd) := by
  induction bars using List.reverseRecOn with
  | nil => simp [view, h]
  | append_singleton bars b ih =>
    rw [primeSymbol_snoc, view_setDay]
    have hfed := (Prod.mk.inj (view_warm symbol le (bars ++ [b]))).2
    rw [hfed]
    simp

theorem view_primeSymbol_of_ne (h : other ≠ symbol) (bars : List Bar) :
    (le.primeSymbol symbol bars).1.view other = le.view other := by
  induction bars using List.reverseRecOn with
  | nil => rfl
  | append_singleton bars b ih => rw [primeSymbol_snoc, view_setDay_of_ne _ h, view_warm_of_ne h]

theorem primeAll_snoc (history : String → List Bar) (le : LiveEnsemble F) (symbols : List String)
    (symbol : String) : le.primeAll history (symbols ++ [symbol]) =
      (((le.primeAll history symbols).1.primeSymbol symbol (history symbol)).1,
        (le.primeAll history symbols).2 ++
          ((le.primeAll history symbols).1.primeSymbol symbol (history symbol)).2.toList) := by
  simp [primeAll, List.foldl_append]

theorem symbols_warm (symbol : String) (le : LiveEnsemble F) (bars : List Bar) :
    (le.warm symbol bars).1.symbols = le.symbols := by
  induction bars using List.reverseRecOn with
  | nil => rfl
  | append_singleton bars b ih =>
    rw [warm_snoc]
    exact ih

theorem symbols_primeSymbol (symbol : String) (le : LiveEnsemble F) (bars : List Bar) :
    (le.primeSymbol symbol bars).1.symbols = le.symbols := by
  induction bars using List.reverseRecOn with
  | nil => rfl
  | append_singleton bars b _ =>
    rw [primeSymbol_snoc]
    exact symbols_warm _ _ _

theorem symbols_primeAll (history : String → List Bar) (le : LiveEnsemble F)
    (symbols : List String) : (le.primeAll history symbols).1.symbols = le.symbols := by
  induction symbols using List.reverseRecOn with
  | nil => rfl
  | append_singleton symbols symbol ih => rw [primeAll_snoc, symbols_primeSymbol, ih]

theorem view_primeAll_of_notMem (h : other ∉ symbols) (history : String → List Bar) :
    (le.primeAll history symbols).1.view other = le.view other := by
  induction symbols using List.reverseRecOn with
  | nil => rfl
  | append_singleton symbols symbol ih =>
    simp only [List.mem_append, List.mem_singleton, not_or] at h
    rw [primeAll_snoc, view_primeSymbol_of_ne h.2, ih h.1]

/-- After priming the last primed bar is open, and its close was fed. -/
theorem view_primeAll (hin : symbol ∈ symbols) (hnodup : symbols.Nodup)
    (hcur : le.current symbol = none) (history : String → List Bar) :
    (le.primeAll history symbols).1.view symbol =
      ((history symbol).getLast?, le.fed symbol ++ (history symbol).map Prod.snd) := by
  induction symbols using List.reverseRecOn with
  | nil => cases hin
  | append_singleton symbols last ih =>
    rw [primeAll_snoc]
    rw [List.nodup_append] at hnodup
    obtain ⟨hnodup, -, hdisj⟩ := hnodup
    by_cases hlast : symbol = last
    · subst hlast
      have hnot : symbol ∉ symbols := fun hmem => hdisj _ hmem _ (List.mem_singleton_self _) rfl
      have hview : (le.primeAll history symbols).1.view symbol = le.view symbol :=
        view_primeAll_of_notMem hnot history
      obtain ⟨hcur', hfed'⟩ := Prod.mk.inj hview
      rw [view_primeSymbol (hcur'.trans hcur), hfed']
    · rw [view_primeSymbol_of_ne hlast]
      exact ih ((List.mem_append.mp hin).resolve_right (by simpa using hlast)) hnodup

end LiveEnsemble

/-! ## Bars in order -/

/-- From the start, the last bar is open and every completed day was fed once. -/
theorem watch_completed (h : bars.Pairwise fun a b => a.1 ≤ b.1) (fed : List ℚ) :
    bars.foldl watch (none, fed) = (bars.getLast?, fed ++ completed bars) := by
  induction bars using List.reverseRecOn with
  | nil => simp [completed]
  | append_singleton bars b ih =>
    rw [List.pairwise_append] at h
    obtain ⟨hbars, -, hle⟩ := h
    rw [List.foldl_append, ih hbars]
    rcases List.eq_nil_or_concat bars with rfl | ⟨bars, a, rfl⟩
    · simp [watch, completed]
    · have hab : a.1 ≤ b.1 := hle a (by simp) b (by simp)
      simp only [List.concat_eq_append, List.append_assoc, List.cons_append, List.nil_append,
        completed_snoc, List.foldl_cons, List.foldl_nil, watch]
      rcases hab.eq_or_lt with heq | hlt
      · simp [heq]
      · simp [hlt.not_ge, hlt.ne]

/-! ## The loads -/

/-- The targets of fresh signals after closes of one symbol. -/
def freshTargets (specs : List (String × TrendSignal F)) (symbol : String) (closes : List ℚ) :
    Targets :=
  specs.map fun spec => (spec.1, (spec.2.replay symbol closes).2)

/-- Every load is a fresh signal that has seen the closes fed. -/
structure InStep (specs : List (String × TrendSignal F)) (le : LiveEnsemble F) : Prop where
  loads : le.loads.map (fun l => (l.name, l.signal)) = specs
  books : ∀ l ∈ le.loads, ∀ symbol,
    l.books symbol = (l.signal.replay symbol (le.fed symbol)).1 symbol

namespace InStep

theorem init {nodup : symbols.Nodup} : InStep specs (.init symbols nodup specs) where
  loads := by
    simp only [LiveEnsemble.init, List.map_map]
    exact List.map_id _
  books l hl symbol := by
    obtain ⟨spec, -, rfl⟩ := List.mem_map.mp hl
    rfl

theorem setDay (h : InStep specs le) (b : Bar) : InStep specs (le.setDay symbol b) :=
  ⟨h.loads, h.books⟩

theorem targets (h : InStep specs le) (symbol : String) (close : ℚ) :
    InStep specs (le.targets symbol close).1 where
  loads := by
    rw [← h.loads]
    simp [LiveEnsemble.targets]
  books l hl other := by
    obtain ⟨l, hmem, rfl⟩ := List.mem_map.mp hl
    have hb := h.books l hmem
    rcases eq_or_ne other symbol with rfl | hne
    · simp only [LiveEnsemble.targets, Function.update_self, TrendSignal.replay_snoc]
      exact (l.signal.update_congr close (hb other)).1
    · simp only [LiveEnsemble.targets, Function.update_of_ne hne]
      rw [l.signal.update_of_ne close hne]
      exact hb other

theorem snd_targets (h : InStep specs le) (symbol : String) (close : ℚ) :
    (le.targets symbol close).2 = freshTargets specs symbol (le.fed symbol ++ [close]) := by
  rw [freshTargets, ← h.loads, List.map_map]
  apply List.map_congr_left
  intro l hl
  simp only [Function.comp_apply, TrendSignal.replay_snoc, Prod.mk.injEq, true_and]
  exact (l.signal.update_congr close (h.books l hl symbol)).2

theorem onTick (h : InStep specs le) (t : Tick) : InStep specs (le.onTick t).1 := by
  rcases LiveEnsemble.onTick_cases le t with ⟨-, he⟩ | ⟨-, -, he⟩ | ⟨-, _, -, -, he⟩ |
    ⟨-, _, -, -, he⟩ | ⟨-, _, -, -, he⟩
  · rwa [he]
  · rw [he]
    exact h.setDay _
  · rwa [he]
  · rw [he]
    exact h.setDay _
  · rw [he]
    exact (h.targets _ _).setDay _

theorem live (h : InStep specs le) (ticks : List Tick) : InStep specs (le.live ticks) := by
  induction ticks using List.reverseRecOn with
  | nil => exact h
  | append_singleton ticks t ih =>
    rw [LiveEnsemble.live_snoc]
    exact ih.onTick t

theorem warm (h : InStep specs le) (symbol : String) (bars : List Bar) :
    InStep specs (le.warm symbol bars).1 := by
  induction bars using List.reverseRecOn with
  | nil => exact h
  | append_singleton bars b ih =>
    rw [LiveEnsemble.warm_snoc]
    exact ih.targets _ _

theorem primeSymbol (h : InStep specs le) (symbol : String) (bars : List Bar) :
    InStep specs (le.primeSymbol symbol bars).1 := by
  induction bars using List.reverseRecOn with
  | nil => exact h
  | append_singleton bars b _ =>
    rw [LiveEnsemble.primeSymbol_snoc]
    exact (h.warm _ _).setDay _

theorem primeAll (h : InStep specs le) (history : String → List Bar) (symbols : List String) :
    InStep specs (le.primeAll history symbols).1 := by
  induction symbols using List.reverseRecOn with
  | nil => exact h
  | append_singleton symbols symbol ih =>
    rw [LiveEnsemble.primeAll_snoc]
    exact ih.primeSymbol _ _

end InStep

/-! ## Live and replayed -/

section Match

variable (specs : List (String × TrendSignal F)) (symbols : List String) (nodup : symbols.Nodup)
  (history : String → List Bar) (ticks : List Tick)

/-- The ensemble after its start on a history. -/
def primed : LiveEnsemble F := ((LiveEnsemble.init symbols nodup specs).prime history).1

/-- The closes of all completed days of a symbol, in the history and in the ticks so far. -/
def completedCloses (symbol : String) (ticks : List Tick) : List ℚ :=
  (history symbol).map Prod.snd ++ completed (barsOf symbol ticks)

/-- The ticks of each symbol are in UTC order and start after its last primed day. -/
structure Follows : Prop where
  ordered : ∀ symbol, (ticks.filter fun t => t.symbol = symbol).Pairwise
    fun s t => s.ts.instant ≤ t.ts.instant
  later : ∀ t ∈ ticks, ∀ last ∈ (history t.symbol).getLast?, last.1 < t.ts.utcDay

/-- After every tick each symbol was fed its completed days once, and a tick that completes a day
returns the targets of fresh signals. -/
def MatchesReplay : Prop :=
  ∀ pre t, pre ++ [t] <+: ticks →
    (∀ symbol ∈ symbols,
      (((primed specs symbols nodup history).live pre).onTick t).1.fed symbol =
        completedCloses history symbol (pre ++ [t])) ∧
    (t.symbol ∈ symbols → completedCloses history t.symbol (pre ++ [t]) ≠
        completedCloses history t.symbol pre →
      ∃ day, (((primed specs symbols nodup history).live pre).onTick t).2 = some (t.symbol, day,
        freshTargets specs t.symbol (completedCloses history t.symbol (pre ++ [t]))))

end Match

section

variable {nodup : symbols.Nodup} {pre : List Tick}

theorem inStep_primed : InStep specs (primed specs symbols nodup history) :=
  InStep.init.primeAll history symbols

theorem symbols_primed : (primed specs symbols nodup history).symbols = symbols :=
  LiveEnsemble.symbols_primeAll _ _ _

theorem view_primed_live (hin : symbol ∈ symbols) (pre : List Tick) :
    ((primed specs symbols nodup history).live pre).view symbol =
      (barsOf symbol pre).foldl watch
        ((history symbol).getLast?, (history symbol).map Prod.snd) := by
  have hprimed : (primed specs symbols nodup history).view symbol =
      ((history symbol).getLast?, (history symbol).map Prod.snd) :=
    LiveEnsemble.view_primeAll hin nodup rfl history
  rw [LiveEnsemble.view_live (by rwa [symbols_primed]), hprimed]

theorem Follows.days (h : Follows history ticks) (hpre : pre <+: ticks) :
    (barsOf symbol pre).Pairwise fun a b => a.1 ≤ b.1 := by
  unfold barsOf
  rw [List.pairwise_map]
  refine ((h.ordered symbol).sublist (hpre.sublist.filter _)).imp ?_
  intro s t hst
  exact Timestamp.utcDay_mono hst

theorem view_of_no_history (h : Follows history ticks) (hpre : pre <+: ticks)
    (hin : symbol ∈ symbols) (hnone : history symbol = []) :
    ((primed specs symbols nodup history).live pre).view symbol =
      ((barsOf symbol pre).getLast?, completedCloses history symbol pre) := by
  rw [view_primed_live hin, hnone]
  simpa [completedCloses, hnone] using watch_completed (h.days hpre) []

theorem view_of_no_tick (hin : symbol ∈ symbols) (hno : ∀ t ∈ pre, t.symbol ≠ symbol) :
    ((primed specs symbols nodup history).live pre).view symbol =
      ((history symbol).getLast?, (history symbol).map Prod.snd) := by
  have hbars : barsOf symbol pre = [] := by
    unfold barsOf
    rw [List.filter_eq_nil_iff.mpr (by simpa using hno)]
    rfl
  rw [view_primed_live hin, hbars]
  rfl

theorem LiveEnsemble.onTick_none_or (le : LiveEnsemble F) (t : Tick) :
    (le.onTick t).1.fed = le.fed ∨ ∃ cur : Bar, (le.onTick t).2 = some (t.symbol, cur.1,
      (le.targets t.symbol cur.2).2) ∧ (le.onTick t).1.fed t.symbol = le.fed t.symbol ++ [cur.2] := by
  rcases onTick_cases le t with ⟨-, h⟩ | ⟨-, -, h⟩ | ⟨-, _, -, -, h⟩ | ⟨-, _, -, -, h⟩ |
    ⟨-, cur, -, -, h⟩
  · exact Or.inl (by rw [h])
  · exact Or.inl (by rw [h]; rfl)
  · exact Or.inl (by rw [h])
  · exact Or.inl (by rw [h]; rfl)
  · refine Or.inr ⟨cur, by rw [h], ?_⟩
    rw [h]
    simp [setDay, targets]

/-- Where no symbol is primed and ticks, every symbol was fed its completed days once. -/
theorem fed_eq (h : Follows history ticks) (hpre : pre <+: ticks)
    (hall : ∀ symbol ∈ symbols, history symbol = [] ∨ ∀ t ∈ ticks, t.symbol ≠ symbol)
    (hin : symbol ∈ symbols) : ((primed specs symbols nodup history).live pre).fed symbol =
      completedCloses history symbol pre := by
  rcases hall symbol hin with hnone | hno
  · have hview : ((primed specs symbols nodup history).live pre).view symbol =
        ((barsOf symbol pre).getLast?, completedCloses history symbol pre) :=
      view_of_no_history h hpre hin hnone
    exact (Prod.mk.inj hview).2
  · have hpre' : ∀ t ∈ pre, t.symbol ≠ symbol := fun t ht => hno t (hpre.subset ht)
    rw [(Prod.mk.inj (view_of_no_tick hin hpre')).2]
    unfold completedCloses barsOf
    rw [List.filter_eq_nil_iff.mpr (by simpa using hpre')]
    simp [completed]

/-- The first tick after a history feeds the last primed close again. -/
theorem fed_twice (h : Follows history ticks) (hpre : pre ++ [t] <+: ticks)
    (hin : t.symbol ∈ symbols) (hno : ∀ s ∈ pre, s.symbol ≠ t.symbol) {last : Bar}
    (hlast : (history t.symbol).getLast? = some last) :
    (((primed specs symbols nodup history).live pre).onTick t).1.fed t.symbol =
      completedCloses history t.symbol (pre ++ [t]) ++ [last.2] := by
  have hday : last.1 < t.bar.1 := h.later t (hpre.subset (by simp)) last hlast
  have hmem : t.symbol ∈ ((primed specs symbols nodup history).live pre).symbols := by
    rwa [LiveEnsemble.symbols_live, symbols_primed]
  have hview := LiveEnsemble.view_onTick hmem
  rw [view_of_no_tick hin hno, hlast] at hview
  have hbars : barsOf t.symbol pre = [] := by
    unfold barsOf
    rw [List.filter_eq_nil_iff.mpr (by simpa using hno)]
    rfl
  have hclosed : completedCloses history t.symbol (pre ++ [t]) =
      (history t.symbol).map Prod.snd := by
    simp [completedCloses, barsOf_snoc, hbars, completed]
  rw [hclosed]
  simp only [watch, if_neg hday.not_ge] at hview
  exact (Prod.mk.inj hview).2

/-- Live signals are replayed signals exactly where every symbol is either primed or ticks, but
not both. -/
theorem live_matches_replay_iff (h : Follows history ticks) :
    MatchesReplay specs symbols nodup history ticks ↔
      ∀ symbol ∈ symbols, history symbol = [] ∨ ∀ t ∈ ticks, t.symbol ≠ symbol := by
  constructor
  · intro hm symbol hin
    by_contra hcon
    rw [not_or] at hcon
    obtain ⟨hne, hticks⟩ := hcon
    push Not at hticks
    obtain ⟨pre, t, post, rfl, rfl, hno⟩ := exists_first hticks
    obtain ⟨last, hlast⟩ := Option.ne_none_iff_exists'.mp (mt List.getLast?_eq_none_iff.mp hne)
    have hpre : pre ++ [t] <+: pre ++ t :: post := ⟨post, by simp⟩
    have hfed := (hm pre t hpre).1 t.symbol hin
    rw [fed_twice h hpre hin hno hlast] at hfed
    simpa using congrArg List.length hfed
  · intro hall pre t hpre
    have hsnoc : ∀ symbol ∈ symbols,
        (((primed specs symbols nodup history).live pre).onTick t).1.fed symbol =
          completedCloses history symbol (pre ++ [t]) := by
      intro symbol hin
      rw [← LiveEnsemble.live_snoc]
      exact fed_eq h hpre hall hin
    refine ⟨hsnoc, ?_⟩
    intro hin hgrows
    have hbefore : ((primed specs symbols nodup history).live pre).fed t.symbol =
        completedCloses history t.symbol pre :=
      fed_eq h ((List.prefix_append pre [t]).trans hpre) hall hin
    rcases LiveEnsemble.onTick_none_or ((primed specs symbols nodup history).live pre) t with
      hsame | ⟨cur, hout, hfed⟩
    · rw [← hsnoc _ hin, hsame, hbefore] at hgrows
      exact absurd rfl hgrows
    · refine ⟨cur.1, ?_⟩
      rw [hout, (inStep_primed.live pre).snd_targets, ← hfed, hsnoc _ hin]

end

/-! ## A boundary bar fed twice -/

section Demo

attribute [local instance] PyFloat.rational

def demoLoad : TrendSignal ℚ where
  short := 1
  long := 3
  entryBand := 0
  volTarget := 1 / 2
  volLookback := 1
  maxWeight := 1
  regimeMaxVol := 1
  barsPerYear := 365
  short_lt := by decide

/-- A tick of a day, at noon. -/
def demoTick (day : ℤ) (price : ℚ) : Tick :=
  ⟨"KRW-BTC", price, ⟨day * 86400000000 + 43200000000, none⟩⟩

def demoHistory (symbol : String) : List Bar :=
  if symbol = "KRW-BTC" then [(0, 90), (1, 100), (2, 110)] else []

/-- Six days of the first symbol, with three ticks on the second one; another symbol is primed and
gets no tick. -/
def warmTicks : List Tick :=
  [demoTick 0 100, demoTick 1 90, demoTick 1 120, demoTick 1 110, demoTick 2 120, demoTick 3 130,
    demoTick 4 60, demoTick 6 70]

def ethHistory (symbol : String) : List Bar :=
  if symbol = "KRW-ETH" then [(0, 90), (1, 100), (2, 110)] else []

/-- After three days the signal enters, and it leaves on the fifth. -/
theorem live_matches_replay_warm :
    Follows ethHistory warmTicks ∧
      freshTargets [("1/3", demoLoad)] "KRW-BTC" [100, 110, 120] = [("1/3", 1)] ∧
      freshTargets [("1/3", demoLoad)] "KRW-BTC" [100, 110, 120, 130, 60] = [("1/3", 0)] ∧
      completedCloses ethHistory "KRW-BTC" warmTicks = [100, 110, 120, 130, 60] ∧
      MatchesReplay [("1/3", demoLoad)] ["KRW-BTC", "KRW-ETH"] (by decide) ethHistory
        warmTicks := by
  have h : Follows ethHistory warmTicks := by
    constructor
    · intro symbol
      apply List.Pairwise.sublist List.filter_sublist
      decide +kernel
    · decide +kernel
  refine ⟨h, by decide +kernel, by decide +kernel, by decide +kernel, ?_⟩
  exact (live_matches_replay_iff h).mpr (by decide +kernel)

/-- Closes 90, 100 and 110 are primed and 106 is ticked: the live average of three has 110 twice,
and the signal leaves a position that the replayed signal keeps. -/
theorem primed_bar_fed_twice :
    Follows demoHistory [demoTick 3 106, demoTick 4 106] ∧
    (((primed [("1/3", demoLoad)] ["KRW-BTC"] (by decide) demoHistory).live
      [demoTick 3 106]).onTick (demoTick 4 106)).2 = some ("KRW-BTC", 3, [("1/3", 0)]) ∧
    freshTargets [("1/3", demoLoad)] "KRW-BTC" [90, 100, 110, 106] = [("1/3", 1)] ∧
    ¬ MatchesReplay [("1/3", demoLoad)] ["KRW-BTC"] (by decide) demoHistory
      [demoTick 3 106, demoTick 4 106] := by
  have hlive : (((primed [("1/3", demoLoad)] ["KRW-BTC"] (by decide) demoHistory).live
      [demoTick 3 106]).onTick (demoTick 4 106)).2 = some ("KRW-BTC", 3, [("1/3", 0)]) := by
    decide +kernel
  have hfresh : freshTargets [("1/3", demoLoad)] "KRW-BTC" [90, 100, 110, 106] = [("1/3", 1)] := by
    decide +kernel
  refine ⟨⟨?_, ?_⟩, hlive, hfresh, ?_⟩
  · intro symbol
    apply List.Pairwise.sublist List.filter_sublist
    decide +kernel
  · decide +kernel
  · intro hm
    have hcloses : completedCloses demoHistory "KRW-BTC" [demoTick 3 106, demoTick 4 106] =
        [90, 100, 110, 106] := by
      decide +kernel
    obtain ⟨day, hout⟩ := (hm [demoTick 3 106] (demoTick 4 106) (by simp)).2 (by decide)
      (by decide +kernel)
    rw [hlive] at hout
    have htargets := (Prod.mk.inj (Prod.mk.inj (Option.some.inj hout)).2).2
    rw [show (demoTick 4 106).symbol = "KRW-BTC" from rfl, List.singleton_append, hcloses,
      hfresh] at htargets
    exact absurd htargets (by decide +kernel)

end Demo

end QuantTrader.Strategy
