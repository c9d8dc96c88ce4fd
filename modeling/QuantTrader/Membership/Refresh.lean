import QuantTrader.Membership.Kr

/-! # Refreshing the membership

A row of an earlier run is replaced by the latest run unless it starts on the day
of its run, off the grid. Such a row stays open for ever: the table represents the
latest run exactly when no symbol of such a row has left since.
-/

namespace QuantTrader.Membership

open ClickHouse

variable {source : Source} {freq : ℤ → Bool} {start day day' d last : ℤ} {code name x : String}
  {a b : ℤ} {earlier : List ℤ}

/-! ## Dates of a run -/

theorem mem_dateRange : d ∈ dateRange freq start day ↔ start ≤ d ∧ d ≤ day ∧ freq d := by
  unfold dateRange
  rw [List.mem_filter, List.mem_map]
  constructor
  · rintro ⟨⟨n, hn, rfl⟩, hfreq⟩
    have hlt := List.mem_range.mp hn
    exact ⟨by omega, by omega, hfreq⟩
  · rintro ⟨hstart, hday, hfreq⟩
    refine ⟨⟨(d - start).toNat, ?_, by omega⟩, hfreq⟩
    rw [List.mem_range]
    omega

theorem dateRange_pairwise : (dateRange freq start day).Pairwise (· < ·) := by
  apply List.Pairwise.filter
  rw [List.pairwise_map]
  apply List.pairwise_lt_range.imp
  intro m n hmn
  omega

/-- A later run extends the grid. -/
theorem dateRange_append (h : day ≤ day') :
    ∃ rest, dateRange freq start day' = dateRange freq start day ++ rest := by
  obtain ⟨n, hn⟩ : ∃ n, (day' - start + 1).toNat = (day - start + 1).toNat + n :=
    Nat.exists_eq_add_of_le (by omega)
  unfold dateRange
  rw [hn, List.range_add, List.map_append, List.filter_append]
  exact ⟨_, rfl⟩

theorem getLast?_dateRange :
    (dateRange freq start day).getLast? = some day ↔ day ∈ dateRange freq start day := by
  constructor
  · exact List.mem_of_getLast?
  · intro hmem
    obtain ⟨before, after, heq⟩ := List.append_of_mem hmem
    have hafter : after = [] := by
      rw [List.eq_nil_iff_forall_not_mem]
      intro e he
      have hp : (dateRange freq start day).Pairwise (· < ·) := dateRange_pairwise
      rw [heq] at hp
      have hlt := (List.pairwise_cons.mp (List.pairwise_append.mp hp).2.1).1 e he
      have hle := (mem_dateRange.mp (heq ▸ List.mem_append_right before (List.mem_cons_of_mem _ he))).2.1
      exact absurd hle hlt.not_ge
    rw [heq, hafter, List.getLast?_concat]

/-- The snapshots of a run on the grid. -/
def gridSnapshots (source : Source) (freq : ℤ → Bool) (start : ℤ) (code : String) (day : ℤ) :
    List Snapshot :=
  snapshots source code (dateRange freq start day)

theorem snapshots_append (l l' : List ℤ) :
    snapshots source code (l ++ l') = snapshots source code l ++ snapshots source code l' :=
  List.filterMap_append

theorem mem_snapshots {l : List ℤ} {snap : Snapshot} :
    snap ∈ snapshots source code l ↔
      snap.1 ∈ l ∧ source code snap.1 ≠ [] ∧ snap.2 = (source code snap.1).dedup := by
  unfold snapshots
  rw [List.mem_filterMap]
  constructor
  · rintro ⟨d, hd, heq⟩
    split_ifs at heq with hnil
    obtain rfl := Option.some.inj heq
    exact ⟨hd, hnil, rfl⟩
  · rintro ⟨hd, hne, hmembers⟩
    refine ⟨snap.1, hd, ?_⟩
    rw [if_neg hne, ← hmembers]

/-- Outside the grid a run adds its own day. -/
theorem runSnapshots_eq : runSnapshots source freq start code day =
    gridSnapshots source freq start code day ++
      if day ∈ dateRange freq start day then [] else snapshots source code [day] := by
  unfold runSnapshots grid gridSnapshots
  by_cases hmem : day ∈ dateRange freq start day
  · rw [if_pos hmem, if_pos (getLast?_dateRange.mpr hmem), List.append_nil]
  · rw [if_neg hmem, if_neg (mt getLast?_dateRange.mp hmem), snapshots_append]

theorem snapshots_pairwise {l : List ℤ} (h : l.Pairwise (· < ·)) :
    (snapshots source code l).Pairwise fun s t => s.1 < t.1 := by
  apply List.pairwise_filterMap.mpr
  apply h.imp
  intro d e hlt s hs t ht
  split_ifs at hs ht
  rw [← Option.some.inj hs, ← Option.some.inj ht]
  exact hlt

theorem grid_pairwise : (grid freq start day).Pairwise (· < ·) := by
  unfold grid
  by_cases hmem : day ∈ dateRange freq start day
  · rw [if_pos (getLast?_dateRange.mpr hmem)]
    exact dateRange_pairwise
  · rw [if_neg (mt getLast?_dateRange.mp hmem), List.pairwise_append]
    refine ⟨dateRange_pairwise, List.pairwise_singleton _ _, ?_⟩
    intro d hd e he
    obtain rfl := List.mem_singleton.mp he
    obtain ⟨hstart, hle, hfreq⟩ := mem_dateRange.mp hd
    apply lt_of_le_of_ne hle
    rintro rfl
    exact hmem hd

theorem samples_pairwise (x : String) :
    (samples x (runSnapshots source freq start code day)).Pairwise fun s t => s.1 < t.1 := by
  unfold samples
  rw [List.pairwise_map]
  exact snapshots_pairwise grid_pairwise

/-! ## Entries of a run -/

/-- The symbol is in the snapshot of a day off the grid, but not in the last one on the grid before
it. -/
def Joins (source : Source) (freq : ℤ → Bool) (start : ℤ) (code : String) (day : ℤ) (x : String) :
    Prop :=
  day ∉ dateRange freq start day ∧ x ∈ source code day ∧
    ∀ snap ∈ (gridSnapshots source freq start code day).getLast?, x ∉ snap.2

theorem samples_append (x : String) (snaps snaps' : List Snapshot) :
    samples x (snaps ++ snaps') = samples x snaps ++ samples x snaps' := List.map_append

theorem samples_singleton (x : String) (snap : Snapshot) :
    samples x [snap] = [(snap.1, decide (x ∈ snap.2))] := rfl

theorem stretch_eq_none_iff {snaps : List Snapshot} :
    stretch none (samples x snaps) = none ↔ ∀ snap ∈ snaps.getLast?, x ∉ snap.2 := by
  induction snaps using List.reverseRecOn with
  | nil => simp [samples, stretch]
  | append_singleton snaps snap _ =>
    rw [samples_append, samples_singleton, stretch_snoc, List.getLast?_concat]
    by_cases hx : x ∈ snap.2 <;> cases stretch none (samples x snaps) <;> simp [hx, advance]

/-- A run has the entries of its grid, and its own day for the symbols that join then. -/
theorem mem_entries_run : a ∈ entries none (samples x (runSnapshots source freq start code day)) ↔
    a ∈ entries none (samples x (gridSnapshots source freq start code day)) ∨
      a = day ∧ Joins source freq start code day x := by
  unfold Joins
  rw [runSnapshots_eq, samples_append, entries_append, List.mem_append, ← stretch_eq_none_iff]
  apply or_congr_right
  by_cases hmem : day ∈ dateRange freq start day
  · simp [hmem, samples, entries]
  · rw [if_neg hmem]
    by_cases hx : x ∈ source code day
    · have hne : source code day ≠ [] := List.ne_nil_of_mem hx
      cases hst : stretch none (samples x (gridSnapshots source freq start code day)) <;>
        simp [snapshots, samples, entries, hmem, hx, hne]
    · by_cases hnil : source code day = []
      · simp [snapshots, samples, entries, hnil]
      · simp [snapshots, samples, entries, hx, hnil]

theorem entries_of_grid (h : day ≤ day')
    (hmem : a ∈ entries none (samples x (gridSnapshots source freq start code day))) :
    a ∈ entries none (samples x (runSnapshots source freq start code day')) := by
  obtain ⟨rest, hrest⟩ : ∃ rest, dateRange freq start day' = dateRange freq start day ++ rest :=
    dateRange_append h
  rw [runSnapshots_eq, gridSnapshots, hrest, snapshots_append, List.append_assoc, samples_append,
    entries_append]
  exact List.mem_append_left _ hmem

theorem date_of_snapshot {snap : Snapshot} (h : snap ∈ runSnapshots source freq start code day) :
    snap.1 ∈ dateRange freq start day ∨ snap.1 = day := by
  have hgrid := (mem_snapshots.mp h).1
  unfold grid at hgrid
  by_cases hlast : (dateRange freq start day).getLast? = some day
  · rw [if_pos hlast] at hgrid
    exact Or.inl hgrid
  · rw [if_neg hlast] at hgrid
    exact (List.mem_append.mp hgrid).imp_right List.mem_singleton.mp

theorem Joins.span (h : Joins source freq start code day x) :
    (day, far) ∈ spans far (samples x (runSnapshots source freq start code day)) := by
  obtain ⟨hoff, hx, hlast⟩ := h
  have hsnaps : snapshots source code [day] = [(day, (source code day).dedup)] := by
    simp [snapshots, List.ne_nil_of_mem hx]
  have hst : stretch none (samples x (runSnapshots source freq start code day)) =
      some (day, day) := by
    rw [runSnapshots_eq, if_neg hoff, hsnaps, samples_append, samples_singleton, stretch_snoc,
      stretch_eq_none_iff.mpr hlast]
    simp [hx, advance]
  apply List.mem_append_right
  rw [hst]
  exact List.mem_singleton_self _

/-! ## The table after runs -/

theorem mem_storeKrMembership (hindex : (name, code) ∈ indices) :
    ((name, x, a), b) ∈ storeKrMembership source freq start day ↔
      (a, b) ∈ spans far (samples x (runSnapshots source freq start code day)) := by
  rw [← mem_diff_iff]
  unfold storeKrMembership indexRows
  rw [List.mem_flatMap]
  constructor
  · rintro ⟨⟨name', code'⟩, hindex', hmem⟩
    obtain ⟨⟨y, s, e⟩, hrow, heq⟩ := List.mem_map.mp hmem
    simp only [Prod.mk.injEq] at heq
    obtain ⟨⟨rfl, rfl, rfl⟩, rfl⟩ := heq
    have hcodes : ∀ i ∈ indices, ∀ j ∈ indices, i.1 = j.1 → i.2 = j.2 := by decide
    obtain rfl : code' = code := hcodes _ hindex' _ hindex rfl
    exact hrow
  · intro hmem
    exact ⟨(name, code), hindex, List.mem_map.mpr ⟨(x, a, b), hmem, rfl⟩⟩

theorem table_snoc (days : List ℤ) : table source freq start (days ++ [day]) =
    table source freq start days ++ storeKrMembership source freq start day := by
  simp [table]

/-- The rows of the latest run are in force. -/
theorem latest_of_span (hindex : (name, code) ∈ indices)
    (hmem : (a, b) ∈ spans far (samples x (runSnapshots source freq start code last))) :
    latest (name, x, a) (table source freq start (earlier ++ [last])) = some b := by
  have hrun : latest (name, x, a) (storeKrMembership source freq start last) = some b := by
    apply latest_eq_some ((mem_storeKrMembership hindex).mpr hmem)
    intro b' hb'
    exact spans_unique (samples_pairwise x) ((mem_storeKrMembership hindex).mp hb') hmem
  rw [table_snoc, latest_append, hrun]
  rfl

/-- A row whose start is no entry of the latest run is the open row of a symbol that joined on the
day of an earlier one. -/
theorem stale_row (hdays : ∀ day ∈ earlier, day < last) (hindex : (name, code) ∈ indices)
    (hno : a ∉ entries none (samples x (runSnapshots source freq start code last)))
    (hmem : ((name, x, a), b) ∈ table source freq start earlier) :
    a ∈ earlier ∧ Joins source freq start code a x ∧ b = far := by
  obtain ⟨day, hday, hrow⟩ := List.mem_flatMap.mp hmem
  have hspan := (mem_storeKrMembership hindex).mp hrow
  rcases mem_entries_run.mp (mem_entries_iff.mpr ⟨b, hspan⟩) with hgrid | ⟨rfl, hjoins⟩
  · exact absurd (entries_of_grid (hdays day hday).le hgrid) hno
  · exact ⟨hday, hjoins, spans_unique (samples_pairwise x) hspan hjoins.span⟩

/-- The day of an earlier run off the grid is no snapshot of the latest run, so no entry of it. -/
theorem Joins.not_snapshot (h : Joins source freq start code day x) (hlt : day < last)
    {snap : Snapshot} (hsnap : snap ∈ runSnapshots source freq start code last) :
    snap.1 ≠ day := by
  rintro rfl
  rcases date_of_snapshot hsnap with hmem | heq
  · obtain ⟨hstart, -, hfreq⟩ := mem_dateRange.mp hmem
    exact h.1 (mem_dateRange.mpr ⟨hstart, le_rfl, hfreq⟩)
  · exact absurd heq hlt.ne

theorem Joins.not_entry (h : Joins source freq start code day x) (hlt : day < last) :
    day ∉ entries none (samples x (runSnapshots source freq start code last)) := by
  intro hmem
  obtain ⟨sample, hsample, heq⟩ := List.mem_map.mp (entries_sublist.subset hmem)
  obtain ⟨snap, hsnap, rfl⟩ := List.mem_map.mp hsample
  exact h.not_snapshot hlt hsnap heq

theorem latest_of_joins (hdays : ∀ day ∈ earlier, day < last) (hindex : (name, code) ∈ indices)
    (hday : day ∈ earlier) (hjoins : Joins source freq start code day x) :
    latest (name, x, day) (table source freq start (earlier ++ [last])) = some far := by
  have hno := hjoins.not_entry (hdays day hday)
  have hrun : latest (name, x, day) (storeKrMembership source freq start last) = none := by
    apply latest_eq_none
    intro b hb
    exact hno (mem_entries_iff.mpr ⟨b, (mem_storeKrMembership hindex).mp hb⟩)
  rw [table_snoc, latest_append, hrun, Option.none_or]
  apply latest_eq_some
  · exact List.mem_flatMap.mpr ⟨day, hday, (mem_storeKrMembership hindex).mpr hjoins.span⟩
  · exact fun b hb => (stale_row hdays hindex hno hb).2.2

/-! ## What the table represents -/

/-- The table has a row of the symbol around the date. -/
def Covers (rows : List (Key × ℤ)) (name x : String) (d : ℤ) : Prop :=
  ∃ a b, latest (name, x, a) rows = some b ∧ a ≤ d ∧ d ≤ b

/-- At the snapshots of the latest run the table has a row around the date exactly for the
members. -/
def Represents (source : Source) (freq : ℤ → Bool) (start : ℤ) (earlier : List ℤ) (last : ℤ) :
    Prop :=
  ∀ index ∈ indices, ∀ snap ∈ runSnapshots source freq start index.2 last, ∀ x,
    Covers (table source freq start (earlier ++ [last])) index.1 x snap.1 ↔ x ∈ snap.2

/-- The latest snapshot is no later than the open end, and a symbol that joined on the day of an
earlier run, off the grid, is in every later snapshot. -/
def Stays (source : Source) (freq : ℤ → Bool) (start : ℤ) (earlier : List ℤ) (last : ℤ) : Prop :=
  ∀ index ∈ indices, (∀ snap ∈ runSnapshots source freq start index.2 last, snap.1 ≤ far) ∧
    ∀ day ∈ earlier, ∀ x, Joins source freq start index.2 day x →
      ∀ snap ∈ runSnapshots source freq start index.2 last, day < snap.1 → x ∈ snap.2

theorem mem_samples {snaps : List Snapshot} {snap : Snapshot} (h : snap ∈ snaps) (x : String) :
    (snap.1, decide (x ∈ snap.2)) ∈ samples x snaps := List.mem_map_of_mem h

theorem covers_of_mem (hindex : (name, code) ∈ indices) {snap : Snapshot}
    (hsnap : snap ∈ runSnapshots source freq start code last) (hfar : snap.1 ≤ far)
    (hx : x ∈ snap.2) :
    Covers (table source freq start (earlier ++ [last])) name x snap.1 := by
  obtain ⟨a, b, hspan, ha, hb⟩ :=
    (mem_spans_iff (samples_pairwise x) (mem_samples hsnap x) hfar).mpr (decide_eq_true hx)
  exact ⟨a, b, latest_of_span hindex hspan, ha, hb⟩

/-- A row in force is a span of the latest run or the open row of a symbol that joined earlier. -/
theorem latest_cases (hdays : ∀ day ∈ earlier, day < last) (hindex : (name, code) ∈ indices)
    (h : latest (name, x, a) (table source freq start (earlier ++ [last])) = some b) :
    (a, b) ∈ spans far (samples x (runSnapshots source freq start code last)) ∨
      a ∈ earlier ∧ Joins source freq start code a x ∧ b = far := by
  by_cases hentry : a ∈ entries none (samples x (runSnapshots source freq start code last))
  · obtain ⟨e, hspan⟩ := mem_entries_iff.mp hentry
    rw [latest_of_span hindex hspan] at h
    rw [← Option.some.inj h]
    exact Or.inl hspan
  · have hmem := mem_of_latest h
    rw [table_snoc, List.mem_append] at hmem
    rcases hmem with hmem | hmem
    · exact Or.inr (stale_row hdays hindex hentry hmem)
    · exact Or.inl ((mem_storeKrMembership hindex).mp hmem)

/-- The members of the latest snapshot are in force there only up to the open end. -/
theorem last_le_far (hdays : ∀ day ∈ earlier, day < last) (hindex : (name, code) ∈ indices)
    (h : ∀ snap ∈ runSnapshots source freq start code last, ∀ x,
      Covers (table source freq start (earlier ++ [last])) name x snap.1 ↔ x ∈ snap.2) :
    ∀ snap ∈ runSnapshots source freq start code last, snap.1 ≤ far := by
  rcases List.eq_nil_or_concat (runSnapshots source freq start code last) with hnil | ⟨snaps, top, heq⟩
  · rw [hnil]
    nofun
  rw [List.concat_eq_append] at heq
  have htop : top ∈ runSnapshots source freq start code last := by
    rw [heq]
    exact List.mem_append_right _ (List.mem_singleton_self _)
  have hle : top.1 ≤ far := by
    obtain ⟨-, hne, hmembers⟩ := mem_snapshots.mp htop
    obtain ⟨x, hx⟩ := List.exists_mem_of_ne_nil _ hne
    obtain ⟨a, b, hrow, -, hb⟩ := (h top htop x).mpr (hmembers ▸ List.mem_dedup.mpr hx)
    rcases latest_cases hdays hindex hrow with hspan | ⟨-, -, rfl⟩
    · have hp : (samples x (runSnapshots source freq start code last)).Pairwise
          fun s t => s.1 < t.1 := samples_pairwise x
      rw [heq, samples_append, samples_singleton] at hspan hp
      rwa [eq_far_of_last_le hp hspan hb] at hb
    · exact hb
  intro snap hsnap
  have hp : (runSnapshots source freq start code last).Pairwise fun s t => s.1 < t.1 :=
    snapshots_pairwise grid_pairwise
  rw [heq] at hsnap hp
  rcases List.mem_append.mp hsnap with hsnap | hsnap
  · exact ((List.pairwise_append.mp hp).2.2 snap hsnap top (List.mem_singleton_self _)).le.trans hle
  · rwa [List.mem_singleton.mp hsnap]

/-- After runs on increasing days the table represents the latest one exactly when no symbol that
joined on the day of an earlier run, off the grid, has left since. -/
theorem represents_iff (hdays : (earlier ++ [last]).Pairwise (· < ·)) :
    Represents source freq start earlier last ↔ Stays source freq start earlier last := by
  have hlt : ∀ day ∈ earlier, day < last := fun day hday =>
    (List.pairwise_append.mp hdays).2.2 day hday last (List.mem_singleton_self _)
  constructor
  · rintro h ⟨name, code⟩ hindex
    have hfar := last_le_far hlt hindex (h (name, code) hindex)
    refine ⟨hfar, ?_⟩
    intro day hday x hjoins snap hsnap hlater
    rw [← h (name, code) hindex snap hsnap x]
    exact ⟨day, far, latest_of_joins hlt hindex hday hjoins, hlater.le, hfar snap hsnap⟩
  · rintro h ⟨name, code⟩ hindex snap hsnap x
    obtain ⟨hfar, hstays⟩ := h (name, code) hindex
    constructor
    · rintro ⟨a, b, hrow, ha, hb⟩
      rcases latest_cases hlt hindex hrow with hspan | ⟨hday, hjoins, -⟩
      · have hflag := (mem_spans_iff (samples_pairwise x) (mem_samples hsnap x)
          (hfar snap hsnap)).mp ⟨a, b, hspan, ha, hb⟩
        exact of_decide_eq_true hflag
      · apply hstays a hday x hjoins snap hsnap
        apply lt_of_le_of_ne ha
        exact (hjoins.not_snapshot (hlt a hday) hsnap).symm
    · exact covers_of_mem hindex hsnap (hfar snap hsnap)

section Demo

/-- A second symbol is a member from day 10 to day 69. -/
def demoSource : Source := fun _ d => if 10 ≤ d ∧ d < 70 then ["005930", "000660"] else ["005930"]

def demoFreq (d : ℤ) : Bool := d % 30 = 0

/-- On day 60 the symbol that had joined by the run of day 15 is still a member. -/
theorem demo_stays : Stays demoSource demoFreq 0 [15] 60 := by
  have hmember : ∀ index ∈ indices, (∀ snap ∈ runSnapshots demoSource demoFreq 0 index.2 60,
      snap.1 ≤ far) ∧ ∀ x ∈ demoSource index.2 15,
        ∀ snap ∈ runSnapshots demoSource demoFreq 0 index.2 60, 15 < snap.1 → x ∈ snap.2 := by
    decide +kernel
  intro index hindex
  obtain ⟨hfar, hlater⟩ := hmember index hindex
  refine ⟨hfar, fun day hday x hjoins => ?_⟩
  obtain rfl := List.mem_singleton.mp hday
  exact hlater x hjoins.2.1

theorem represents_iff_demo : Represents demoSource demoFreq 0 [15] 60 :=
  (represents_iff (by decide)).mpr demo_stays

/-- The run of day 15 leaves an open row from that day on; the run of day 90 no longer has the
symbol. -/
theorem stale_membership :
    latest ("KOSPI200", "000660", 15) (table demoSource demoFreq 0 [15, 90]) = some far ∧
    (90, ["005930"]) ∈ runSnapshots demoSource demoFreq 0 "1028" 90 ∧
    ¬ Represents demoSource demoFreq 0 [15] 90 := by
  have hrow : latest ("KOSPI200", "000660", 15) (table demoSource demoFreq 0 [15, 90]) =
      some far := by
    decide +kernel
  have hsnap : (90, ["005930"]) ∈ runSnapshots demoSource demoFreq 0 "1028" 90 := by
    decide +kernel
  refine ⟨hrow, hsnap, ?_⟩
  intro h
  have hmem := (h ("KOSPI200", "1028") (by decide) _ hsnap "000660").mp
    ⟨15, far, hrow, by decide, by decide⟩
  exact absurd hmem (by decide)

end Demo

end QuantTrader.Membership
