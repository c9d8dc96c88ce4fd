import Mathlib.Data.List.Nodup
import QuantTrader.Fundamentals.Edgar

/-! # Point-in-time features

What the pipeline resolves before it looks anything up by filing date must not
depend on later filings. For an instant account it never does; for a flow
account it does not if later filings are about later quarters.
-/

namespace QuantTrader.Fundamentals

open Frames

variable {S : Sorting} {cf cf' : List Fact} {c : Concept} {d : ℤ}

/-- No quarter filed after `d` is as old as one filed by `d`. -/
def Forward (d : ℤ) (cf : List Fact) : Prop :=
  ∀ c ∈ [Concept.netIncome, .revenue], ∀ a ∈ quarters cf c, a.filed ≤ d →
    ∀ b ∈ quarters cf c, d < b.filed → a.periodEnd < b.periodEnd

/-- No two rows of an account that are filed by `d` share their filing date. -/
def Apart (d : ℤ) (cf : List Fact) : Prop :=
  (∀ c ∈ [Concept.shares, .equity, .assets], ∀ a ∈ instants cf c, ∀ b ∈ instants cf c,
    a.1 ≤ d → a.1 = b.1 → a = b) ∧
  ∀ c ∈ [Concept.netIncome, .revenue], ∀ a ∈ quarters cf c, ∀ b ∈ quarters cf c,
    a.filed ≤ d → a.filed = b.filed → a = b

/-- The rows filed by `d`. -/
def known (d : ℤ) (cf : List Fact) : List Fact := cf.filter fun f => f.filedDate ≤ d

/-- The rows filed by `d` are the same: in the same order if the sort keeps ties in order, in any
order if there are none. -/
def Agree (S : Sorting) (d : ℤ) (cf cf' : List Fact) : Prop :=
  S.Stable ∧ known d cf = known d cf' ∨ Apart d cf ∧ (known d cf).Perm (known d cf')

theorem Agree.of_eq (h : known d cf = known d cf') (hties : S.Stable ∨ Apart d cf) :
    Agree S d cf cf' :=
  hties.imp (fun hstable => ⟨hstable, h⟩) fun hapart => ⟨hapart, List.Perm.of_eq h⟩

theorem Agree.ties (h : Agree S d cf cf') : S.Stable ∨ Apart d cf := h.imp And.left And.left

/-! ## Instant accounts -/

theorem filter_instants (d : ℤ) (cf : List Fact) :
    ((instants cf c).filter fun r => r.1 ≤ d) = instants (known d cf) c := by
  rw [known, instants, instants, List.filter_map, List.filter_filter, List.filter_filter]
  congr 2
  funext f
  exact Bool.and_comm _ _

theorem Agree.inst_eq (h : Agree S d cf cf') (hc : c ∈ [Concept.shares, .equity, .assets]) {t : ℤ}
    (ht : t ≤ d) : inst S cf c t = inst S cf' c t := by
  have hsort : ((S.sort Prod.fst (instants cf c)).filter fun r => r.1 ≤ d) =
      (S.sort Prod.fst (instants cf' c)).filter fun r => r.1 ≤ d := by
    rcases h with ⟨hstable, h⟩ | ⟨hapart, h⟩
    · apply hstable.filter_sort Prod.fst fun t => t ≤ d
      rw [filter_instants, filter_instants, h]
    · apply Sorting.filter_sort_of_perm Prod.fst fun t => t ≤ d
      · rw [filter_instants, filter_instants]
        exact (h.filter _).map _
      · simpa using hapart.1 c hc
  apply Sorting.asof_congr ht
  · rw [filter_dropDuplicates fun t => t ≤ d, hsort, filter_dropDuplicates fun t => t ≤ d]
  · right
    intro a ha b hb _ hab
    exact eq_of_key_eq dropDuplicates_pairwise ha hb hab

/-! ## Flow accounts -/

theorem filter_quarters (d : ℤ) (cf : List Fact) :
    ((quarters cf c).filter fun q => q.filed ≤ d) = quarters (known d cf) c := by
  rw [known, quarters, quarters, List.filter_map, List.filter_filter, List.filter_filter]
  congr 2
  funext f
  exact Bool.and_comm _ _

theorem columns_append (past : List (ℚ × Option ℚ)) (qs qs' : List Quarter) :
    ∃ past', past'.map Prod.fst = (qs.map Quarter.value).reverse ++ past.map Prod.fst ∧
      columns past (qs ++ qs') = columns past qs ++ columns past' qs' := by
  induction qs generalizing past with
  | nil => exact ⟨past, rfl, rfl⟩
  | cons q qs ih =>
    obtain ⟨past', hpast, h⟩ := ih ((q.value, rollingSum (q.value :: past.map Prod.fst)) :: past)
    refine ⟨past', ?_, ?_⟩
    · simp [hpast]
    · rw [List.cons_append, columns, columns, h, List.cons_append]

theorem columns_map (past : List (ℚ × Option ℚ)) (qs : List Quarter) :
    (columns past qs).map (fun r => (r.periodEnd, r.filed)) =
      qs.map fun q => (q.periodEnd, q.filed) := by
  induction qs generalizing past with
  | nil => rfl
  | cons q qs ih => rw [columns, List.map_cons, List.map_cons, ih]

theorem mem_columns {past : List (ℚ × Option ℚ)} {qs : List Quarter} {r : TtmRow}
    (h : r ∈ columns past qs) : ∃ q ∈ qs, q.periodEnd = r.periodEnd ∧ q.filed = r.filed := by
  have hmem := List.mem_map_of_mem (f := fun r : TtmRow => (r.periodEnd, r.filed)) h
  rw [columns_map] at hmem
  obtain ⟨q, hq, heq⟩ := List.mem_map.mp hmem
  exact ⟨q, hq, congrArg Prod.fst heq, congrArg Prod.snd heq⟩

theorem mem_latestQuarters {q : Quarter} (h : q ∈ latestQuarters S cf c) : q ∈ quarters cf c :=
  Sorting.mem_sort.mp (dropDuplicates_sublist.subset h)

/-- The rows of a flow account in the order of their quarters. -/
def sortedQuarters (S : Sorting) (cf : List Fact) (c : Concept) : List Quarter :=
  S.sort (fun q => toLex (q.periodEnd, q.filed)) (quarters cf c)

/-- The last row by `d` of each quarter. -/
def knownQuarters (S : Sorting) (d : ℤ) (cf : List Fact) (c : Concept) : List Quarter :=
  dropDuplicates Quarter.periodEnd ((sortedQuarters S cf c).filter fun q => q.filed ≤ d)

/-- The quarters filed by `d` come first. -/
theorem Forward.latestQuarters_eq (h : Forward d cf) (hc : c ∈ [Concept.netIncome, .revenue]) :
    latestQuarters S cf c = knownQuarters S d cf c ++
      dropDuplicates Quarter.periodEnd
        ((sortedQuarters S cf c).filter fun q => !decide (q.filed ≤ d)) := by
  have hforward : ∀ a ∈ sortedQuarters S cf c, ∀ b ∈ sortedQuarters S cf c, a.filed ≤ d →
      ¬ b.filed ≤ d → a.periodEnd < b.periodEnd := by
    intro a ha b hb had hbd
    exact h c hc a (Sorting.mem_sort.mp ha) had b (Sorting.mem_sort.mp hb) (not_le.mp hbd)
  have hsorted : (sortedQuarters S cf c).Pairwise fun a b =>
      decide (b.filed ≤ d) = true → decide (a.filed ≤ d) = true := by
    refine List.Pairwise.imp_of_mem ?_ (S.sorted _ (quarters cf c))
    intro a b ha hb hab hbd
    by_contra had
    have hlt := hforward b hb a ha (of_decide_eq_true hbd) (by simpa using had)
    rcases Prod.Lex.toLex_le_toLex.mp hab with hab | ⟨hab, -⟩
    · exact absurd hlt (not_lt.mpr hab.le)
    · exact absurd hab hlt.ne'
  have hparts := filter_append_filter hsorted
  unfold latestQuarters
  change dropDuplicates _ (sortedQuarters S cf c) = _
  rw [← hparts, dropDuplicates_append]
  · rw [hparts, knownQuarters]
  · intro a ha b hb
    obtain ⟨ha, had⟩ := List.mem_filter.mp ha
    obtain ⟨hb, hbd⟩ := List.mem_filter.mp hb
    exact (hforward a ha b hb (of_decide_eq_true had) (by simpa using hbd)).ne'

theorem Agree.knownQuarters_eq (h : Agree S d cf cf') (hc : c ∈ [Concept.netIncome, .revenue]) :
    knownQuarters S d cf c = knownQuarters S d cf' c := by
  unfold knownQuarters
  congr 1
  rcases h with ⟨hstable, h⟩ | ⟨hapart, h⟩
  · apply hstable.filter_sort (fun q : Quarter => toLex (q.periodEnd, q.filed))
      fun k => (ofLex k).2 ≤ d
    exact (filter_quarters d cf).trans (by rw [h, ← filter_quarters]; rfl)
  · apply Sorting.filter_sort_of_perm (fun q : Quarter => toLex (q.periodEnd, q.filed))
      fun k => (ofLex k).2 ≤ d
    · have hperm : (quarters (known d cf) c).Perm (quarters (known d cf') c) := (h.filter _).map _
      rwa [← filter_quarters, ← filter_quarters] at hperm
    · intro a ha b hb had hab
      exact hapart.2 c hc a ha b hb (of_decide_eq_true had) (congrArg (fun k => (ofLex k).2) hab)

/-- The rows with their sums, before `ttm` sorts them. -/
def summed (S : Sorting) (cf : List Fact) (c : Concept) : List TtmRow :=
  (columns [] (latestQuarters S cf c)).filter fun r => r.ttm.isSome

theorem Forward.summed_eq (h : Forward d cf) (hc : c ∈ [Concept.netIncome, .revenue]) :
    ((summed S cf c).filter fun r => r.filed ≤ d) =
      (columns [] (knownQuarters S d cf c)).filter fun r => r.ttm.isSome := by
  obtain ⟨past, -, hcols⟩ := columns_append [] (knownQuarters S d cf c)
    (dropDuplicates Quarter.periodEnd
      ((sortedQuarters S cf c).filter fun q => !decide (q.filed ≤ d)))
  rw [summed, h.latestQuarters_eq hc, hcols, List.filter_filter, List.filter_append]
  have hknown : ∀ r ∈ columns [] (knownQuarters S d cf c), r.filed ≤ d := by
    intro r hr
    obtain ⟨q, hq, -, hfiled⟩ := mem_columns hr
    have := (List.mem_filter.mp (dropDuplicates_sublist.subset hq)).2
    exact hfiled ▸ of_decide_eq_true this
  have hlate : ((columns past (dropDuplicates Quarter.periodEnd
      ((sortedQuarters S cf c).filter fun q => !decide (q.filed ≤ d)))).filter fun r =>
        decide (r.filed ≤ d) && r.ttm.isSome) = [] := by
    apply List.filter_eq_nil_iff.mpr
    intro r hr
    obtain ⟨q, hq, -, hfiled⟩ := mem_columns hr
    have hq := (List.mem_filter.mp (dropDuplicates_sublist.subset hq)).2
    have hlt : ¬ r.filed ≤ d := by simpa [hfiled] using hq
    simp [hlt]
  rw [hlate, List.append_nil]
  exact List.filter_congr fun r hr => by simp [hknown r hr]

theorem columns_eq_of_periodEnd_eq {a b : TtmRow} (ha : a ∈ columns [] (latestQuarters S cf c))
    (hb : b ∈ columns [] (latestQuarters S cf c)) (h : a.periodEnd = b.periodEnd) : a = b := by
  have hmap := congrArg (List.map Prod.fst) (columns_map [] (latestQuarters S cf c))
  rw [List.map_map, List.map_map] at hmap
  have hne : ((latestQuarters S cf c).map Quarter.periodEnd).Pairwise (· ≠ ·) :=
    List.pairwise_map.mpr dropDuplicates_pairwise
  have hrows : (columns [] (latestQuarters S cf c)).Pairwise fun a b =>
      a.periodEnd ≠ b.periodEnd := List.pairwise_map.mp (hmap ▸ hne)
  exact eq_of_key_eq hrows ha hb h

theorem Agree.summed_ties (h : Agree S d cf cf') (hc : c ∈ [Concept.netIncome, .revenue]) :
    S.Stable ∨ ∀ a ∈ summed S cf c, ∀ b ∈ summed S cf c, a.filed ≤ d →
      a.filed = b.filed → a = b := by
  refine h.ties.imp_right fun hapart a ha b hb had hab => ?_
  obtain ⟨p, hp, hpa, hpf⟩ := mem_columns (List.mem_of_mem_filter ha)
  obtain ⟨q, hq, hqb, hqf⟩ := mem_columns (List.mem_of_mem_filter hb)
  obtain rfl := hapart.2 c hc p (mem_latestQuarters hp) q (mem_latestQuarters hq) (hpf ▸ had)
    (by rw [hpf, hqf, hab])
  exact columns_eq_of_periodEnd_eq (List.mem_of_mem_filter ha) (List.mem_of_mem_filter hb)
    (hpa.symm.trans hqb)

/-- What a flow account shows at a day is determined by the rows filed by then. -/
theorem Agree.ttm_asof_eq (h : Agree S d cf cf') (hc : c ∈ [Concept.netIncome, .revenue])
    (hf : Forward d cf) (hf' : Forward d cf') (col : TtmRow → Option ℚ) {t : ℤ} (ht : t ≤ d) :
    S.asof ((ttm S cf c).map fun r => (r.filed, col r)) t =
      S.asof ((ttm S cf' c).map fun r => (r.filed, col r)) t := by
  have hsummed : ((summed S cf c).filter fun r => r.filed ≤ d) =
      (summed S cf' c).filter fun r => r.filed ≤ d := by
    rw [hf.summed_eq hc, hf'.summed_eq hc, h.knownQuarters_eq hc]
  have hsort := Sorting.filter_sort_congr (S := S) TtmRow.filed (fun t => t ≤ d) hsummed
    (by simpa using h.summed_ties hc)
  apply Sorting.asof_congr ht
  · rw [List.filter_map, List.filter_map]
    exact congrArg _ hsort
  · refine (h.summed_ties hc).imp_right fun hties a ha b hb had hab => ?_
    obtain ⟨r, hr, rfl⟩ := List.mem_map.mp ha
    obtain ⟨r', hr', rfl⟩ := List.mem_map.mp hb
    rw [hties r (Sorting.mem_sort.mp hr) r' (Sorting.mem_sort.mp hr') had hab]

/-! ## Features -/

theorem features_eq (log : ℚ → ℚ) (h : Agree S d cf cf') (hf : Forward d cf)
    (hf' : Forward d cf') {x : Day} (hx : x.date ≤ d) :
    features S log cf x = features S log cf' x := by
  have hinst : ∀ c ∈ [Concept.shares, .equity, .assets], inst S cf c x.date = inst S cf' c x.date :=
    fun c hc => h.inst_eq hc hx
  have hflow : ∀ c ∈ [Concept.netIncome, .revenue], ∀ col : TtmRow → Option ℚ,
      S.asof ((ttm S cf c).map fun r => (r.filed, col r)) x.date =
        S.asof ((ttm S cf' c).map fun r => (r.filed, col r)) x.date :=
    fun c hc col => h.ttm_asof_eq hc hf hf' col hx
  unfold features ttmAsof yoyAsof
  rw [hinst .shares (by simp), hinst .equity (by simp), hinst .assets (by simp),
    hflow .netIncome (by simp), hflow .revenue (by simp), hflow .revenue (by simp)]

/-- The features up to a day are the same for any two tables with the same rows filed by that day,
if what is filed later is about later quarters. -/
theorem pointInTime (log : ℚ → ℚ) (g : List Day) (h : Agree S d cf cf') (hf : Forward d cf)
    (hf' : Forward d cf') :
    ((featuresFromConcepts S log g cf).filter fun f => f.date ≤ d) =
      (featuresFromConcepts S log g cf').filter fun f => f.date ≤ d := by
  unfold featuresFromConcepts
  rw [List.filter_map, List.filter_map]
  apply List.map_congr_left
  intro x hx
  exact features_eq log h hf hf' (of_decide_eq_true (List.mem_filter.mp hx).2)

section Demo

/-- Shares, and four quarters with the net income of a year. -/
def demoFacts : List Fact :=
  [⟨.shares, 90, 100, 0, 10⟩, ⟨.netIncome, 90, 120, 90, 10⟩, ⟨.netIncome, 180, 210, 90, 20⟩,
    ⟨.netIncome, 270, 300, 90, 30⟩, ⟨.netIncome, 360, 400, 90, 40⟩]

def demoNext : Fact := ⟨.netIncome, 450, 500, 90, 50⟩

def demoRestated : Fact := ⟨.netIncome, 360, 500, 90, 45⟩

/-- A price-earnings ratio of 1/2. -/
def demoDay : Day := ⟨410, 5, 1⟩

/-- The second table has the next quarter and is stored the other way round. -/
theorem pointInTime_demo :
    ((featuresFromConcepts Sorting.insertion id [demoDay]
      (demoFacts ++ [demoNext]).reverse).filter fun f => f.date ≤ 410).map Features.per =
        [some (1 / 2)] := by
  have hapart : Apart 410 demoFacts := by
    unfold Apart
    decide +kernel
  have hagree : Agree Sorting.insertion 410 demoFacts (demoFacts ++ [demoNext]).reverse :=
    .inr ⟨hapart, by decide +kernel⟩
  have h := pointInTime id [demoDay] hagree (by unfold Forward; decide +kernel)
    (by unfold Forward; decide +kernel)
  rw [← h]
  decide +kernel

/-- The restatement of day 500 takes the ratio of day 410 away. -/
theorem restatement_looks_ahead :
    known 410 demoFacts = known 410 (demoFacts ++ [demoRestated]) ∧
    (featuresFromConcepts Sorting.insertion id [demoDay] demoFacts).map Features.per =
      [some (1 / 2)] ∧
    (featuresFromConcepts Sorting.insertion id [demoDay] (demoFacts ++ [demoRestated])).map
      Features.per = [none] ∧
    ¬ ∀ (S : Sorting) (log : ℚ → ℚ) (g : List Day) (d : ℤ) (cf cf' : List Fact), S.Stable →
      known d cf = known d cf' →
        ((featuresFromConcepts S log g cf).filter fun f => f.date ≤ d) =
          (featuresFromConcepts S log g cf').filter fun f => f.date ≤ d := by
  have hknown : known 410 demoFacts = known 410 (demoFacts ++ [demoRestated]) := by decide +kernel
  refine ⟨hknown, by decide +kernel, by decide +kernel, ?_⟩
  intro h
  have heq := h Sorting.insertion id [demoDay] 410 _ _ Sorting.insertion_stable hknown
  exact absurd (congrArg (List.map Features.per) heq) (by decide +kernel)

end Demo

end QuantTrader.Fundamentals
