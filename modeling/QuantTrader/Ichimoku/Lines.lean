import Mathlib.Algebra.Order.Ring.Rat
import Mathlib.Data.List.TakeDrop
import QuantTrader.Calendar.Iso
import QuantTrader.Ichimoku.Plan

/-! # The ichimoku lines and signals

Daily rows become weekly bars, one for each ISO week but the one in progress. A line
at a bar is the middle of a window that ends there; the cloud at a bar is drawn from
the bars up to the displacement before it. So no line looks ahead, and the latest
signal does not see the week in progress.
-/

namespace QuantTrader.Ichimoku

open Calendar

/-- A daily row; a row without a volume has five columns. -/
structure Daily where
  date : Date
  o : ℚ
  h : ℚ
  l : ℚ
  c : ℚ
  v : Option ℚ

structure Bar where
  weekEnd : Date
  o : ℚ
  h : ℚ
  l : ℚ
  c : ℚ
  v : ℚ

/-- The rows of an ISO week, in their order. -/
structure Week where
  key : ℤ × ℤ
  first : Daily
  rest : List Daily

namespace Week

def rows (w : Week) : List Daily := w.first :: w.rest

def last (w : Week) : Daily := w.rest.getLastD w.first

def bar (w : Week) : Bar where
  weekEnd := w.last.date
  o := w.first.o
  h := w.rest.foldl (fun m r => max m r.h) w.first.h
  l := w.rest.foldl (fun m r => min m r.l) w.first.l
  c := w.last.c
  v := (w.rows.map fun r => r.v.getD 0).sum

end Week

/-- A row goes to the week of its date, or begins it. -/
def group : List Week → Daily → List Week
  | [], r => [⟨r.date.isoCalendar, r, []⟩]
  | w :: weeks, r =>
    if w.key = r.date.isoCalendar then { w with rest := w.rest ++ [r] } :: weeks
    else w :: group weeks r

def weeklyBars (daily : List Daily) (dropWeekOf : Option Date) : List Bar :=
  ((daily.foldl group []).filter fun w => some w.key ≠ dropWeekOf.map Date.isoCalendar).map
    Week.bar

structure Windows where
  tenkan : ℕ
  kijun : ℕ
  senkouB : ℕ
  disp : ℕ
  pos : 0 < tenkan ∧ 0 < kijun ∧ 0 < senkouB ∧ 0 < disp

/-- The defaults of `ichimoku_lines`. -/
def Windows.default : Windows := ⟨9, 26, 52, 26, by decide⟩

/-- `xs[i - win + 1:i + 1]`. -/
def slice (xs : List ℚ) (win i : ℕ) : List ℚ := (xs.drop (i + 1 - win)).take win

/-- `_mid`: the middle of a window; nothing while the window is not full. -/
def mid (bars : List Bar) (win i : ℕ) : Option ℚ :=
  if i + 1 < win then none
  else do
    let high ← (slice (bars.map Bar.h) win i).max?
    let low ← (slice (bars.map Bar.l) win i).min?
    return (high + low) / 2

structure Lines where
  tenkan : List (Option ℚ)
  kijun : List (Option ℚ)
  spanA : List (Option ℚ)
  spanB : List (Option ℚ)

/-- A line moved forward by the displacement. -/
def displaced (disp n : ℕ) (raw : List (Option ℚ)) : List (Option ℚ) :=
  (List.range n).map fun i => if disp ≤ i then raw[i - disp]?.join else none

def ichimokuLines (bars : List Bar) (w : Windows) : Lines :=
  let n := bars.length
  let ten := (List.range n).map (mid bars w.tenkan)
  let kij := (List.range n).map (mid bars w.kijun)
  let aRaw := (List.range n).map fun i => do
    let t ← ten[i]?.join
    let k ← kij[i]?.join
    return (t + k) / 2
  let bRaw := (List.range n).map (mid bars w.senkouB)
  ⟨ten, kij, displaced w.disp n aRaw, displaced w.disp n bRaw⟩

inductive ExitRule
  | tkCross
  | cloud
  deriving DecidableEq

structure Signal where
  close : ℚ
  cloudTop : ℚ
  cloudBot : ℚ
  tenkan : ℚ
  kijun : ℚ
  entry : Bool
  exit : Bool
  breakoutPct : ℚ
  deriving DecidableEq

/-- The bar closes at most at the top of its cloud, which is there. -/
def notAbove (lines : Lines) (bars : List Bar) (i : ℕ) : Bool :=
  match lines.spanA[i]?.join, lines.spanB[i]?.join, bars[i]? with
  | some a, some b, some bar => bar.c ≤ max a b
  | _, _, _ => false

def latestSignal (bars : List Bar) (exitRule : ExitRule) (w : Windows) : Option Signal :=
  let n := bars.length
  if n < 2 then none
  else do
    let lines := ichimokuLines bars w
    let sa ← lines.spanA[n - 1]?.join
    let sb ← lines.spanB[n - 1]?.join
    let ten ← lines.tenkan[n - 1]?.join
    let kij ← lines.kijun[n - 1]?.join
    let bar ← bars[n - 1]?
    let cloudTop := max sa sb
    return {
      close := bar.c
      cloudTop
      cloudBot := min sa sb
      tenkan := ten
      kijun := kij
      entry := cloudTop < bar.c && kij < ten && notAbove lines bars (n - 2)
      exit := match exitRule with
        | .tkCross => ten < kij
        | .cloud => bar.c ≤ cloudTop
      breakoutPct := if cloudTop = 0 then 0 else (bar.c - cloudTop) / cloudTop }

/-- What the plan reads of a signal. -/
def Signal.latest (s : Signal) : LatestSignal := ⟨some s.close, s.entry, s.exit, s.breakoutPct⟩

/-- The signals at the default windows; a symbol without lines has none. -/
def buildSignals (hist : List (String × List Daily)) (today : Date) (exitRule : ExitRule) :
    List (String × LatestSignal) :=
  hist.filterMap fun (sym, rows) =>
    (latestSignal (weeklyBars rows (some today)) exitRule .default).map fun s => (sym, s.latest)

/-! ## Causality -/

section

variable {bars bars' : List Bar} {w : Windows} {i j k m win : ℕ} {xs ys : List ℚ}

theorem slice_take (hw : win ≤ i + 1) (h : i < m) : slice (xs.take m) win i = slice xs win i := by
  rw [slice, slice, List.drop_take, List.take_take, min_eq_left (by omega)]

/-- A window looks at the bars up to its end only. -/
theorem mid_take (h : i < m) : mid (bars.take m) win i = mid bars win i := by
  rw [mid, mid]
  split_ifs with hw
  · rfl
  · rw [List.map_take, List.map_take, slice_take (by omega) h, slice_take (by omega) h]

/-- The raw span A at a bar. -/
def rawA (bars : List Bar) (w : Windows) (i : ℕ) : Option ℚ := do
  let t ← mid bars w.tenkan i
  let k ← mid bars w.kijun i
  return (t + k) / 2

theorem rawA_take (h : i < m) : rawA (bars.take m) w i = rawA bars w i := by
  rw [rawA, mid_take h, mid_take h, rawA]

theorem getElem?_range_map {α : Type*} (f : ℕ → α) (n i : ℕ) :
    ((List.range n).map f)[i]? = if i < n then some (f i) else none := by
  rw [List.getElem?_map]
  split_ifs with h
  · rw [List.getElem?_range h, Option.map_some]
  · rw [List.getElem?_eq_none (by simpa using h), Option.map_none]

theorem getElem?_displaced {disp n : ℕ} (f : ℕ → Option ℚ) :
    (displaced disp n ((List.range n).map f))[i]? =
      if i < n then some (if disp ≤ i then f (i - disp) else none) else none := by
  rw [displaced, getElem?_range_map, getElem?_range_map]
  split_ifs with hn hd hlt
  · rfl
  · omega
  · rfl
  · rfl

def Lines.at (l : Lines) (i : ℕ) : List (Option (Option ℚ)) :=
  [l.tenkan[i]?, l.kijun[i]?, l.spanA[i]?, l.spanB[i]?]

theorem rawA_list : ((List.range bars.length).map fun i => do
      let t ← ((List.range bars.length).map (mid bars w.tenkan))[i]?.join
      let k ← ((List.range bars.length).map (mid bars w.kijun))[i]?.join
      return (t + k) / 2) = (List.range bars.length).map (rawA bars w) := by
  apply List.map_congr_left
  intro i hi
  rw [getElem?_range_map, getElem?_range_map, if_pos (List.mem_range.mp hi),
    if_pos (List.mem_range.mp hi)]
  rfl

theorem spanA_at : (ichimokuLines bars w).spanA[i]? = if i < bars.length then
    some (if w.disp ≤ i then rawA bars w (i - w.disp) else none) else none := by
  rw [ichimokuLines, rawA_list, getElem?_displaced]

theorem spanB_at : (ichimokuLines bars w).spanB[i]? = if i < bars.length then
    some (if w.disp ≤ i then mid bars w.senkouB (i - w.disp) else none) else none :=
  getElem?_displaced _

/-- The lines of the first bars are the first of the lines. -/
theorem lines_take (h : i < k) :
    (ichimokuLines (bars.take k) w).at i = (ichimokuLines bars w).at i := by
  have hlen : i < (bars.take k).length ↔ i < bars.length := by
    rw [List.length_take]
    omega
  have hmid : ∀ win, mid (bars.take k) win i = mid bars win i := fun _ => mid_take h
  have hten : ∀ win, ((List.range (bars.take k).length).map (mid (bars.take k) win))[i]? =
      ((List.range bars.length).map (mid bars win))[i]? := by
    intro win
    simp only [getElem?_range_map, hlen, hmid]
  have hd : i - w.disp < k := by omega
  rw [Lines.at, Lines.at, spanA_at, spanB_at, spanA_at, spanB_at, rawA_take hd, mid_take hd]
  simp only [hlen, ichimokuLines, hten]

/-- The cloud at a bar is drawn from the bars up to the displacement before it. -/
theorem spans_congr (h : bars.take (i + 1 - w.disp) = bars'.take (i + 1 - w.disp))
    (hi : i < bars.length) (hi' : i < bars'.length) :
    (ichimokuLines bars w).spanA[i]? = (ichimokuLines bars' w).spanA[i]? ∧
      (ichimokuLines bars w).spanB[i]? = (ichimokuLines bars' w).spanB[i]? := by
  rw [spanA_at, spanB_at, spanA_at, spanB_at, if_pos hi, if_pos hi, if_pos hi', if_pos hi']
  by_cases hd : w.disp ≤ i
  · have hm : i - w.disp < i + 1 - w.disp := by omega
    have hA : ∀ bars, rawA (bars.take (i + 1 - w.disp)) w (i - w.disp) =
        rawA bars w (i - w.disp) := fun _ => rawA_take hm
    have hB : ∀ bars, mid (bars.take (i + 1 - w.disp)) w.senkouB (i - w.disp) =
        mid bars w.senkouB (i - w.disp) := fun _ => mid_take hm
    rw [if_pos hd, if_pos hd, if_pos hd, if_pos hd, ← hA bars, ← hA bars', ← hB bars, ← hB bars', h]
    exact ⟨rfl, rfl⟩
  · simp [hd]

/-! ## The week in progress -/

/-- The rows outside the ISO week of a date. -/
def outside (today : Date) (rows : List Daily) : List Daily :=
  rows.filter fun r => r.date.isoCalendar ≠ today.isoCalendar

variable {today : Date} {weeks : List Week} {rows rows' : List Daily} {r : Daily}

/-- The weeks that stay when the week of a date is dropped. -/
def kept (today : Date) (weeks : List Week) : List Week :=
  weeks.filter fun w => w.key ≠ today.isoCalendar

theorem kept_cons {w : Week} : kept today (w :: weeks) =
    if w.key ≠ today.isoCalendar then w :: kept today weeks else kept today weeks := by
  simp only [kept, List.filter_cons, decide_eq_true_eq]

/-- A row outside the dropped week does not notice it, a row in it does not matter. -/
theorem kept_group : kept today (group weeks r) =
    if r.date.isoCalendar ≠ today.isoCalendar then group (kept today weeks) r
    else kept today weeks := by
  induction weeks with
  | nil => rw [group, kept_cons]; rfl
  | cons w weeks ih =>
    rw [group]
    by_cases hw : w.key = r.date.isoCalendar
    · rw [if_pos hw, kept_cons, kept_cons, ← hw]
      split_ifs with hr
      · rw [group, if_pos hw]
      · rfl
    · rw [if_neg hw, kept_cons, kept_cons, ih]
      split_ifs with hkey hr
      · rw [group, if_neg hw]
      · rfl
      · rfl
      · rfl

theorem kept_foldl (rows : List Daily) :
    kept today (rows.foldl group []) = (outside today rows).foldl group [] := by
  induction rows using List.reverseRecOn with
  | nil => rfl
  | append_singleton rows r ih =>
    rw [List.foldl_append, List.foldl_cons, List.foldl_nil, kept_group, ih, outside, outside,
      List.filter_append]
    split_ifs with h <;> simp [h]

theorem weeklyBars_drop (rows : List Daily) :
    weeklyBars rows (some today) = weeklyBars (outside today rows) none := by
  have hall : ∀ w ∈ (outside today rows).foldl group [],
      decide (some w.key ≠ Option.map Date.isoCalendar none) = true := by
    intro w _
    simp
  rw [weeklyBars, weeklyBars, List.filter_eq_self.mpr hall, ← kept_foldl, kept]
  simp

/-- The signals do not see the week in progress. -/
theorem buildSignals_outside (hist : List (String × List Daily)) (exitRule : ExitRule) :
    buildSignals (hist.map fun (sym, rows) => (sym, outside today rows)) today exitRule =
      buildSignals hist today exitRule := by
  have htwice : ∀ rows, outside today (outside today rows) = outside today rows := by
    intro rows
    rw [outside, outside, List.filter_filter]
    simp only [Bool.and_self]
  simp only [buildSignals, List.filterMap_map, Function.comp_def, weeklyBars_drop, htwice]

/-- No line looks ahead: the lines of the first bars stay when bars follow, the cloud at a bar is
drawn from the bars up to the displacement before it, and the latest signal depends on the rows
outside today's week only. -/
theorem ichimoku_causal (w : Windows) (hik : i < k)
    (hspan : bars.take (j + 1 - w.disp) = bars'.take (j + 1 - w.disp))
    (hj : j < bars.length) (hj' : j < bars'.length)
    (hrows : rows.filter (fun r => r.date.week ≠ today.week) =
      rows'.filter fun r => r.date.week ≠ today.week) (exitRule : ExitRule) :
    (ichimokuLines (bars.take k) w).at i = (ichimokuLines bars w).at i ∧
    ((ichimokuLines bars w).spanA[j]? = (ichimokuLines bars' w).spanA[j]? ∧
      (ichimokuLines bars w).spanB[j]? = (ichimokuLines bars' w).spanB[j]?) ∧
    latestSignal (weeklyBars rows (some today)) exitRule w =
      latestSignal (weeklyBars rows' (some today)) exitRule w := by
  have hout : ∀ rows, outside today rows = rows.filter fun r => r.date.week ≠ today.week := by
    intro rows
    simp only [outside, ne_eq, isoCalendar_eq_iff]
  refine ⟨lines_take hik, spans_congr hspan hj hj', ?_⟩
  rw [weeklyBars_drop rows, weeklyBars_drop rows', hout, hout, hrows]

end

section Demo

def november (day : ℤ) (h : 1 ≤ day ∧ day ≤ daysInMonth 2024 11) : Date :=
  ⟨2024, 11, day, by decide, h⟩

def december (day : ℤ) (h : 1 ≤ day ∧ day ≤ daysInMonth 2024 12) : Date :=
  ⟨2024, 12, day, by decide, h⟩

theorem january_valid : (1 ≤ 1 ∧ 1 ≤ 12) ∧ (1 ≤ (3 : ℤ) ∧ 3 ≤ daysInMonth 2025 1) := by decide

/-- Two dates of one ISO week, of two years. -/
def monday : Date := december 30 (by decide)

def friday : Date := ⟨2025, 1, 3, january_valid.1, january_valid.2⟩

def demoRow (date : Date) (px : ℚ) : Daily := ⟨date, px, px + 1, px - 1, px, none⟩

/-- Eight weeks; the last one breaks out. -/
def demoRows : List Daily :=
  [demoRow (november 4 (by decide)) 10, demoRow (november 8 (by decide)) 12,
    demoRow (november 11 (by decide)) 11, demoRow (november 18 (by decide)) 10,
    demoRow (november 25 (by decide)) 10, demoRow (december 2 (by decide)) 11,
    demoRow (december 9 (by decide)) 8, demoRow (december 16 (by decide)) 9,
    demoRow (december 23 (by decide)) 15]

def demoWindows : Windows := ⟨2, 3, 4, 2, by decide⟩

def demoBars (later : ℚ) : List Bar :=
  [10, 12, 11, 10, 10, 11, later, later].map fun px => ⟨monday, px, px + 1, px - 1, px, 0⟩

/-- The bars have all lines, and the week in progress would end the breakout. -/
theorem ichimoku_causal_demo :
    ((ichimokuLines (demoBars 9) demoWindows).spanB[7]?.join.isSome = true ∧
      (latestSignal (weeklyBars demoRows (some friday)) .cloud demoWindows).map Signal.entry =
        some true ∧
      (latestSignal (weeklyBars (demoRows ++ [demoRow monday 4]) none) .cloud demoWindows).map
        Signal.entry = some false) ∧
    (ichimokuLines ((demoBars 9).take 7) demoWindows).at 6 =
      (ichimokuLines (demoBars 9) demoWindows).at 6 ∧
    ((ichimokuLines (demoBars 9) demoWindows).spanA[7]? =
        (ichimokuLines (demoBars 5) demoWindows).spanA[7]? ∧
      (ichimokuLines (demoBars 9) demoWindows).spanB[7]? =
        (ichimokuLines (demoBars 5) demoWindows).spanB[7]?) ∧
    latestSignal (weeklyBars (demoRows ++ [demoRow monday 4]) (some friday)) .cloud demoWindows =
      latestSignal (weeklyBars demoRows (some friday)) .cloud demoWindows := by
  have hweek : (demoRow monday 4).date.week = friday.week := by decide +kernel
  have hrows : (demoRows ++ [demoRow monday 4]).filter (fun r => r.date.week ≠ friday.week) =
      demoRows.filter fun r => r.date.week ≠ friday.week := by
    simp [hweek]
  have hspan : (demoBars 9).take (7 + 1 - demoWindows.disp) =
      (demoBars 5).take (7 + 1 - demoWindows.disp) := by
    simp [demoBars, demoWindows]
  refine ⟨by decide +kernel, ?_⟩
  exact ichimoku_causal demoWindows (by decide) hspan (by decide) (by decide) hrows .cloud

end Demo

end QuantTrader.Ichimoku
