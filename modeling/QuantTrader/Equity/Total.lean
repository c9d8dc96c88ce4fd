import Mathlib.Data.List.Dedup
import Mathlib.Data.List.Sort
import Mathlib.Data.Rat.Lemmas
import Mathlib.Algebra.Order.Ring.Rat
import QuantTrader.Series.Carry

/-! # The total over the markets

The series of the markets are merged into one in won. Every market has a cursor that
moves forward with the dates and carries its last value, and the dollar market is
converted at the last rate, found by binary search. The merge starts where the last
market starts; a date before the first rate is left out.
-/

namespace QuantTrader.Equity

open Series

variable {δ : Type*} [LinearOrder δ]

/-- `_fx_at`: the last rate up to a date. -/
def fxAt (fx : List (δ × ℚ)) (fxDates : List δ) (d : δ) : Option ℚ :=
  match bisectRight fxDates d 0 fxDates.length with
  | 0 => none
  | i + 1 => fx[i]?.map Prod.snd

/-- A market that takes part, with its cursor and the value the cursor carries. -/
structure Lane (δ : Type*) where
  market : String
  pts : List (δ × ℚ)
  idx : ℕ
  last : Option ℚ

/-- The cursor of a market moves up to a date. -/
def Lane.step (d : δ) (l : Lane δ) : Lane δ :=
  let (i, last) := advance l.pts d l.idx l.last
  { l with idx := i, last := last }

/-- A market is added at its carried value; nothing when the value or the rate is missing. -/
def addLane (fx : List (δ × ℚ)) (fxDates : List δ) (d : δ) (total : ℚ) (l : Lane δ) : Option ℚ := do
  let v ← l.last
  if l.market = "US" then
    let rate ← fxAt fx fxDates d
    return total + v * rate
  else return total + v

def totalOf (fx : List (δ × ℚ)) (fxDates : List δ) (d : δ) (lanes : List (Lane δ)) : Option ℚ :=
  lanes.foldlM (addLane fx fxDates d) 0

def mergeLoop (fx : List (δ × ℚ)) (fxDates : List δ) : List (Lane δ) → List δ → List (δ × ℚ)
  | _, [] => []
  | lanes, d :: ds =>
    let lanes := lanes.map (Lane.step d)
    match totalOf fx fxDates d lanes with
    | some total => (d, total) :: mergeLoop fx fxDates lanes ds
    | none => mergeLoop fx fxDates lanes ds

def active (series : List (String × List (δ × ℚ))) : List (String × List (δ × ℚ)) :=
  series.filter (·.2 ≠ [])

/-- The dates of the merge: all dates of the markets from a start on, each once and in order. -/
def mergeDates (series : List (String × List (δ × ℚ))) (start : δ) : List δ :=
  (((series.flatMap fun s => s.2.map Prod.fst).filter (start ≤ ·)).dedup).mergeSort (· ≤ ·)

def mergeTotalKrw (series : List (String × List (δ × ℚ))) (fx : List (δ × ℚ)) : List (δ × ℚ) :=
  if "US" ∈ (active series).map Prod.fst ∧ fx = [] then []
  else
    match ((active series).filterMap fun s => s.2.head?.map Prod.fst).max? with
    | none => []
    | some start =>
      mergeLoop fx (fx.map Prod.fst) ((active series).map fun s => ⟨s.1, s.2, 0, none⟩)
        (mergeDates (active series) start)

/-- Points stand in the order of their dates. -/
def Ascending (pts : List (δ × ℚ)) : Prop := pts.Pairwise fun p q => p.1 ≤ q.1

/-- What a market is worth in won on a date, from its last value and the last rate up to it. -/
def worth (fx : List (δ × ℚ)) (d : δ) (s : String × List (δ × ℚ)) : ℚ :=
  (upTo s.2 d).getD 0 * if s.1 = "US" then (upTo fx d).getD 0 else 1

section

variable {series : List (String × List (δ × ℚ))} {fx : List (δ × ℚ)} {lanes : List (Lane δ)}
  {ds : List δ} {d start : δ} {t : ℚ}

theorem fxAt_eq (hfx : Ascending fx) : fxAt fx (fx.map Prod.fst) d = upTo fx d := by
  have hr : bisectRight (fx.map Prod.fst) d 0 (fx.map Prod.fst).length = reach fx d := by
    rw [List.length_map]
    exact bisectRight_eq hfx (Nat.zero_le _) reach_le_length le_rfl
  rw [fxAt, hr, upTo_eq_lastOf hfx]
  have hlen : reach fx d ≤ fx.length := reach_le_length
  cases hk : reach fx d with
  | zero => simp
  | succ i =>
    have hi : i < fx.length := by omega
    have hp : fx[i]? = some fx[i] := List.getElem?_eq_getElem hi
    simp only [lastOf_succ hp, hp, Option.map_some]

/-- The lane of a market once its cursor is up to a date. -/
def laneAt (d : δ) (s : String × List (δ × ℚ)) : Lane δ := ⟨s.1, s.2, reach s.2 d, upTo s.2 d⟩

/-- A lane whose cursor is not past the dates to come. -/
structure Lane.Ready (ds : List δ) (l : Lane δ) : Prop where
  ascending : Ascending l.pts
  last_eq : l.last = lastOf l.pts l.idx
  idx_le : ∀ d ∈ ds, l.idx ≤ reach l.pts d

theorem Lane.Ready.step {l : Lane δ} (h : l.Ready (d :: ds)) :
    l.step d = laneAt d (l.market, l.pts) := by
  have hle : l.idx ≤ reach l.pts d := h.idx_le d List.mem_cons_self
  rw [Lane.step, advance_eq h.ascending h.last_eq hle, laneAt, upTo_eq_lastOf h.ascending]

theorem ready_laneAt {s : String × List (δ × ℚ)} (hs : Ascending s.2) (hd : ∀ e ∈ ds, d ≤ e) :
    (laneAt d s).Ready ds where
  ascending := hs
  last_eq := upTo_eq_lastOf hs
  idx_le := fun e he => reach_mono (hd e he)

theorem mergeLoop_eq {fxDates : List δ} (hds : ds.Pairwise (· ≤ ·))
    (h : ∀ l ∈ lanes, l.Ready ds) : mergeLoop fx fxDates lanes ds = ds.filterMap fun d =>
      (totalOf fx fxDates d (lanes.map fun l => laneAt d (l.market, l.pts))).map (d, ·) := by
  induction ds generalizing lanes with
  | nil => rfl
  | cons d ds ih =>
    rw [List.pairwise_cons] at hds
    have hstep : lanes.map (Lane.step d) = lanes.map fun l => laneAt d (l.market, l.pts) :=
      List.map_congr_left fun l hl => (h l hl).step
    have hready : ∀ l ∈ lanes.map (Lane.step d), l.Ready ds := by
      rw [hstep]
      intro l hl
      obtain ⟨l', hl', rfl⟩ := List.mem_map.mp hl
      exact ready_laneAt (h l' hl').ascending hds.1
    have hih := ih hds.2 hready
    simp only [hstep, List.map_map, Function.comp_def, laneAt] at hih
    rw [mergeLoop, hstep, List.filterMap_cons]
    simp only [laneAt, hih]
    split <;> simp_all

theorem addLane_eq (hfx : Ascending fx) {s : String × List (δ × ℚ)}
    (hval : ∃ v, upTo s.2 d = some v) : addLane fx (fx.map Prod.fst) d t (laneAt d s) =
      if s.1 = "US" ∧ upTo fx d = none then none else some (t + worth fx d s) := by
  obtain ⟨v, hv⟩ := hval
  by_cases hus : s.1 = "US"
  · cases hr : upTo fx d <;> simp [addLane, laneAt, worth, fxAt_eq hfx, hv, hus, hr]
  · simp [addLane, laneAt, worth, hv, hus]

/-- With a value in every market, only a rate can be missing. -/
theorem foldlM_addLane (hfx : Ascending fx) (hval : ∀ s ∈ series, ∃ v, upTo s.2 d = some v) :
    (series.map (laneAt d)).foldlM (addLane fx (fx.map Prod.fst) d) t =
      if "US" ∈ series.map Prod.fst ∧ upTo fx d = none then none
      else some (t + (series.map (worth fx d)).sum) := by
  induction series generalizing t with
  | nil => simp
  | cons s series ih =>
    rw [List.forall_mem_cons] at hval
    rw [List.map_cons, List.foldlM_cons, addLane_eq hfx hval.1]
    by_cases hr : upTo fx d = none
    · by_cases hus : s.1 = "US"
      · simp [hus, hr]
      · have hne : "US" ≠ s.1 := fun h => hus h.symm
        simp only [hus, false_and, if_false, Option.bind_eq_bind, Option.bind_some, ih hval.2,
          List.map_cons, List.mem_cons, hne, false_or, List.sum_cons, add_assoc]
    · simp [hr, ih hval.2, add_assoc]

omit [LinearOrder δ] in
theorem mem_active {s : String × List (δ × ℚ)} : s ∈ active series ↔ s ∈ series ∧ s.2 ≠ [] := by
  simp [active]

theorem mem_mergeDates : d ∈ mergeDates series start ↔
    (∃ s ∈ series, d ∈ s.2.map Prod.fst) ∧ start ≤ d := by
  simp [mergeDates]

theorem mergeDates_sorted : (mergeDates series start).Pairwise (· < ·) := by
  have hle : (mergeDates series start).Pairwise (· ≤ ·) := List.pairwise_mergeSort' _ _
  have hnd : (mergeDates series start).Nodup :=
    (List.mergeSort_perm _ _).nodup_iff.mpr (List.nodup_dedup _)
  exact hle.imp₂ (fun _ _ h hne => lt_of_le_of_ne h hne) hnd

omit [LinearOrder δ] in
theorem exists_mem_active {f : List (δ × ℚ) → List δ} (hf : f [] = []) :
    (∃ s ∈ active series, d ∈ f s.2) ↔ ∃ s ∈ series, d ∈ f s.2 := by
  constructor
  · rintro ⟨s, hs, hd⟩
    exact ⟨s, (mem_active.mp hs).1, hd⟩
  · rintro ⟨s, hs, hd⟩
    refine ⟨s, mem_active.mpr ⟨hs, fun h => ?_⟩, hd⟩
    simp [h, hf] at hd

theorem start_le_iff
    (hstart : ((active series).filterMap fun s => s.2.head?.map Prod.fst).max? = some start) :
    start ≤ d ↔ ∀ s ∈ series, ∀ p ∈ s.2.head?, p.1 ≤ d := by
  rw [List.max?_le_iff hstart]
  constructor
  · intro h s hs p hp
    refine h _ (List.mem_filterMap.mpr ⟨s, mem_active.mpr ⟨hs, ?_⟩, ?_⟩)
    · rintro h0
      simp [h0] at hp
    · rw [Option.mem_def.mp hp, Option.map_some]
  · intro h e he
    obtain ⟨s, hs, hse⟩ := List.mem_filterMap.mp he
    obtain ⟨p, hp, rfl⟩ := Option.map_eq_some_iff.mp hse
    exact h s (mem_active.mp hs).1 p hp

theorem exists_upTo (h : ∀ s ∈ series, ∀ p ∈ s.2.head?, p.1 ≤ d) :
    ∀ s ∈ active series, ∃ v, upTo s.2 d = some v := by
  intro s hs
  obtain ⟨hmem, hne⟩ := mem_active.mp hs
  obtain ⟨p, pts, hp⟩ := List.exists_cons_of_ne_nil hne
  refine upTo_isSome_iff.mpr ⟨p, by simp [hp], h s hmem p ?_⟩
  simp [hp]

theorem mergeLoop_dates (hs : ∀ s ∈ series, Ascending s.2) (hfx : Ascending fx)
    (hstart : ((active series).filterMap fun s => s.2.head?.map Prod.fst).max? = some start) :
    mergeLoop fx (fx.map Prod.fst) ((active series).map fun s => ⟨s.1, s.2, 0, none⟩)
        (mergeDates (active series) start) =
      (mergeDates (active series) start).filterMap fun d =>
        if "US" ∈ (active series).map Prod.fst ∧ upTo fx d = none then none
        else some (d, ((active series).map (worth fx d)).sum) := by
  have hready : ∀ l ∈ (active series).map fun s => (⟨s.1, s.2, 0, none⟩ : Lane δ),
      l.Ready (mergeDates (active series) start) := by
    intro l hl
    obtain ⟨s, hs', rfl⟩ := List.mem_map.mp hl
    exact ⟨hs s (mem_active.mp hs').1, rfl, fun _ _ => Nat.zero_le _⟩
  rw [mergeLoop_eq (mergeDates_sorted.imp le_of_lt) hready]
  apply List.filterMap_congr
  intro d hd
  have hval := exists_upTo ((start_le_iff hstart).mp (mem_mergeDates.mp hd).2)
  have hmap := foldlM_addLane (t := 0) hfx hval
  rw [zero_add] at hmap
  rw [List.map_map, totalOf]
  refine (congrArg _ hmap).trans ?_
  split_ifs <;> rfl

theorem not_rateless_iff : ¬ ("US" ∈ (active series).map Prod.fst ∧ upTo fx d = none) ↔
    ("US" ∈ (active series).map Prod.fst → ∃ r ∈ fx, r.1 ≤ d) := by
  rw [not_and, ← upTo_isSome_iff]
  simp only [← Option.isSome_iff_exists, Option.isSome_iff_ne_none, ne_eq]

theorem mem_mergeTotalKrw_iff (hs : ∀ s ∈ series, Ascending s.2) (hfx : Ascending fx) :
    (d, t) ∈ mergeTotalKrw series fx ↔ (∃ s ∈ series, d ∈ s.2.map Prod.fst) ∧
      (∀ s ∈ series, ∀ p ∈ s.2.head?, p.1 ≤ d) ∧
      ("US" ∈ (active series).map Prod.fst → ∃ r ∈ fx, r.1 ≤ d) ∧
      t = ((active series).map (worth fx d)).sum := by
  rw [← exists_mem_active (f := fun pts => pts.map Prod.fst) rfl, mergeTotalKrw]
  split_ifs with hus
  · refine iff_of_false List.not_mem_nil ?_
    rintro ⟨-, -, hrate, -⟩
    obtain ⟨r, hr, -⟩ := hrate hus.1
    simp [hus.2] at hr
  cases hstart : ((active series).filterMap fun s => s.2.head?.map Prod.fst).max? with
  | none =>
    refine iff_of_false List.not_mem_nil ?_
    rintro ⟨⟨s, hs, -⟩, -⟩
    rw [List.max?_eq_none_iff, List.filterMap_eq_nil_iff] at hstart
    have := hstart s hs
    simp [(mem_active.mp hs).2] at this
  | some start =>
    dsimp only
    rw [mergeLoop_dates hs hfx hstart, ← start_le_iff hstart, ← and_assoc, ← mem_mergeDates,
      ← not_rateless_iff, List.mem_filterMap]
    constructor
    · rintro ⟨e, he, heq⟩
      split_ifs at heq with hr
      obtain ⟨rfl, rfl⟩ := Prod.ext_iff.mp (Option.some.inj heq)
      exact ⟨he, hr, rfl⟩
    · rintro ⟨hd, hr, rfl⟩
      exact ⟨d, hd, by rw [if_neg hr]⟩

theorem mergeTotalKrw_sorted (hs : ∀ s ∈ series, Ascending s.2) (hfx : Ascending fx) :
    (mergeTotalKrw series fx).Pairwise fun p q => p.1 < q.1 := by
  rw [mergeTotalKrw]
  split_ifs with hus
  · exact List.Pairwise.nil
  split
  · exact List.Pairwise.nil
  · next start hstart =>
    rw [mergeLoop_dates hs hfx hstart, List.pairwise_filterMap]
    refine mergeDates_sorted.imp fun {a b} hab p hp q hq => ?_
    split_ifs at hp hq
    rw [← Option.some.inj hp, ← Option.some.inj hq]
    exact hab

/-- The merge has, in order, the dates of the markets from the last first date on at which no rate
is missing, each with the sum of what the markets are worth. -/
theorem mergeTotalKrw_spec (hs : ∀ s ∈ series, s.2.Pairwise fun p q => p.1 < q.1)
    (hfx : Ascending fx) : (mergeTotalKrw series fx).Pairwise (fun p q => p.1 < q.1) ∧
      ∀ d t, (d, t) ∈ mergeTotalKrw series fx ↔ (∃ s ∈ series, d ∈ s.2.map Prod.fst) ∧
        (∀ s ∈ series, ∀ p ∈ s.2.head?, p.1 ≤ d) ∧
        ("US" ∈ (active series).map Prod.fst → ∃ r ∈ fx, r.1 ≤ d) ∧
        t = ((active series).map (worth fx d)).sum := by
  have hs' : ∀ s ∈ series, Ascending s.2 := fun s hm => (hs s hm).imp le_of_lt
  exact ⟨mergeTotalKrw_sorted hs' hfx, fun d t => mem_mergeTotalKrw_iff hs' hfx⟩

end

theorem mergeTotalKrw_spec_gap :
    let series : List (String × List (ℤ × ℚ)) :=
      [("COIN", [(1, 10), (4, 12)]), ("KR", []), ("US", [(2, 1), (3, 2)])]
    let fx : List (ℤ × ℚ) := [(3, 1000), (5, 1100)]
    (mergeTotalKrw series fx).Pairwise (fun p q => p.1 < q.1) ∧
      ∀ d t, (d, t) ∈ mergeTotalKrw series fx ↔ (∃ s ∈ series, d ∈ s.2.map Prod.fst) ∧
        (∀ s ∈ series, ∀ p ∈ s.2.head?, p.1 ≤ d) ∧
        ("US" ∈ (active series).map Prod.fst → ∃ r ∈ fx, r.1 ≤ d) ∧
        t = ((active series).map (worth fx d)).sum :=
  mergeTotalKrw_spec (by decide) (by unfold Ascending; decide)

end QuantTrader.Equity
