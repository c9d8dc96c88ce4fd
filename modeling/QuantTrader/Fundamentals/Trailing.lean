import Mathlib.Data.List.Perm.Subperm
import QuantTrader.Fundamentals.PointInTime
import QuantTrader.Fundamentals.Store

/-! # Trailing twelve months

The rolling sum adds four rows, and rows are the quarters that have a fact of a
single quarter. Where one of four consecutive fiscal quarters has none, an older
quarter takes its place.
-/

namespace QuantTrader.Fundamentals

open ClickHouse Frames

/-- The fiscal quarters of a company, numbered, and the day on which each ends. -/
structure Calendar where
  ends : ℤ → ℤ
  increasing : ∀ {i j : ℤ}, i < j → ends i < ends j

/-- The value of the quarter that ends on a day, as it was filed last. -/
def filedLast (qs : List Quarter) (e : ℤ) : Option ℚ :=
  ((qs.filter fun q => q.periodEnd = e).maxOn? Quarter.filed).map Quarter.value

/-- The sum over four consecutive fiscal quarters, if all of them have a value. -/
def Calendar.trailing (cal : Calendar) (qs : List Quarter) (n : ℤ) : Option ℚ := do
  let a ← filedLast qs (cal.ends (n - 3))
  let b ← filedLast qs (cal.ends (n - 2))
  let c ← filedLast qs (cal.ends (n - 1))
  let d ← filedLast qs (cal.ends n)
  return a + b + c + d

/-- A fiscal quarter has a fact of a single quarter. -/
def Calendar.Available (cal : Calendar) (qs : List Quarter) (n : ℤ) : Prop :=
  ∃ q ∈ qs, q.periodEnd = cal.ends n

instance (cal : Calendar) (qs : List Quarter) (n : ℤ) : Decidable (cal.Available qs n) :=
  inferInstanceAs (Decidable (∃ q ∈ qs, _))

/-- The `ttm` of a period end. -/
def ttmAt (S : Sorting) (cf : List Fact) (c : Concept) (e : ℤ) : Option ℚ :=
  ((ttm S cf c).find? fun r => r.periodEnd = e).bind TtmRow.ttm

variable {S : Sorting} {cf : List Fact} {c : Concept} {cal : Calendar} {n e : ℤ}
  {qs pre post : List Quarter} {p q : Quarter}

theorem Calendar.ends_lt_iff {i j : ℤ} : cal.ends i < cal.ends j ↔ i < j := by
  constructor
  · intro h
    by_contra hij
    rcases lt_or_eq_of_le (not_lt.mp hij) with hlt | rfl
    · exact absurd h (cal.increasing hlt).asymm
    · exact absurd h (lt_irrefl _)
  · exact cal.increasing

theorem Calendar.eq_of_ends_eq {i j : ℤ} (h : cal.ends i = cal.ends j) : i = j := by
  rcases lt_trichotomy i j with hlt | heq | hlt
  · exact absurd h (cal.increasing hlt).ne
  · exact heq
  · exact absurd h (cal.increasing hlt).ne'

/-! ## Values of quarters -/

theorem filedLast_eq_some (hq : q ∈ qs)
    (hlast : ∀ p ∈ qs, p.periodEnd = q.periodEnd → p.filed ≤ q.filed)
    (hone : ∀ p ∈ qs, p.periodEnd = q.periodEnd → p.filed = q.filed → p = q) :
    filedLast qs q.periodEnd = some q.value := by
  have hmem : q ∈ qs.filter fun p => p.periodEnd = q.periodEnd :=
    List.mem_filter.mpr ⟨hq, decide_eq_true rfl⟩
  have hle := List.le_apply_get_maxOn?_of_mem (f := Quarter.filed) hmem
  unfold filedLast
  cases hmax : (qs.filter fun p => p.periodEnd = q.periodEnd).maxOn? Quarter.filed with
  | none => simpa [hmax] using List.isSome_maxOn?_of_mem (f := Quarter.filed) hmem
  | some p =>
    obtain ⟨hp, hpe⟩ := List.mem_filter.mp (List.maxOn?_mem hmax)
    have hge : q.filed ≤ p.filed := by simpa [hmax] using hle
    have hle := hlast p hp (of_decide_eq_true hpe)
    obtain rfl := hone p hp (of_decide_eq_true hpe) (le_antisymm hle hge)
    rfl

theorem filedLast_eq_none (h : ∀ q ∈ qs, q.periodEnd ≠ e) : filedLast qs e = none := by
  have hnil : (qs.filter fun q => q.periodEnd = e) = [] :=
    List.filter_eq_nil_iff.mpr fun q hq => by simpa using h q hq
  rw [filedLast, hnil]
  rfl

theorem available_of_filedLast {v : ℚ} (h : filedLast qs (cal.ends n) = some v) :
    cal.Available qs n := by
  by_contra hnot
  rw [filedLast_eq_none fun q hq he => hnot ⟨q, hq, he⟩] at h
  cases h

theorem available_of_trailing {v : ℚ} (h : cal.trailing qs n = some v) :
    cal.Available qs (n - 3) ∧ cal.Available qs (n - 2) ∧ cal.Available qs (n - 1) ∧
      cal.Available qs n := by
  simp only [Calendar.trailing, Option.bind_eq_bind, Option.bind_eq_some_iff] at h
  obtain ⟨a, ha, b, hb, c, hc, d, hd, -⟩ := h
  exact ⟨available_of_filedLast ha, available_of_filedLast hb, available_of_filedLast hc,
    available_of_filedLast hd⟩

/-! ## Rows -/

theorem latestQuarters_increasing (S : Sorting) (cf : List Fact) (c : Concept) :
    (latestQuarters S cf c).Pairwise fun a b => a.periodEnd < b.periodEnd := by
  have hsorted := S.sorted (fun q : Quarter => toLex (q.periodEnd, q.filed)) (quarters cf c)
  have hsub : List.Sublist (latestQuarters S cf c) _ := dropDuplicates_sublist
  refine (hsorted.sublist hsub).imp₂ ?_ dropDuplicates_pairwise
  intro a b hle hne
  rcases Prod.Lex.toLex_le_toLex.mp hle with hlt | ⟨heq, -⟩
  · exact hlt
  · exact absurd heq hne

theorem filed_le_of_mem_latestQuarters (hq : q ∈ latestQuarters S cf c) (hp : p ∈ quarters cf c)
    (he : p.periodEnd = q.periodEnd) : p.filed ≤ q.filed := by
  have hsorted := S.sorted (fun q : Quarter => toLex (q.periodEnd, q.filed)) (quarters cf c)
  rcases rel_of_mem_dropDuplicates hsorted hq (Sorting.mem_sort.mpr hp) he with rfl | hle
  · exact le_rfl
  · rcases Prod.Lex.toLex_le_toLex.mp hle with hlt | ⟨-, hfiled⟩
    · exact absurd he hlt.ne
    · exact hfiled

theorem exists_mem_latestQuarters (hp : p ∈ quarters cf c) :
    ∃ q ∈ latestQuarters S cf c, q.periodEnd = p.periodEnd :=
  exists_mem_dropDuplicates (Sorting.mem_sort.mpr hp)

theorem ttmAt_eq (h : latestQuarters S cf c = pre ++ q :: post) :
    ttmAt S cf c q.periodEnd = rollingSum (q.value :: (pre.map Quarter.value).reverse) := by
  obtain ⟨past, hpast, hcols⟩ := columns_append [] pre (q :: post)
  rw [columns, hpast, List.map_nil, List.append_nil, ← h] at hcols
  obtain ⟨r, hr, he, httm⟩ : ∃ r ∈ columns [] (latestQuarters S cf c),
      r.periodEnd = q.periodEnd ∧
        r.ttm = rollingSum (q.value :: (pre.map Quarter.value).reverse) := by
    rw [hcols]
    exact ⟨_, List.mem_append_right _ List.mem_cons_self, rfl, rfl⟩
  rw [← httm, ← he]
  unfold ttmAt
  cases hfind : (ttm S cf c).find? fun r' => r'.periodEnd = r.periodEnd with
  | none =>
    cases hsum : r.ttm with
    | none => rfl
    | some v =>
      have hmem : r ∈ ttm S cf c := Sorting.mem_sort.mpr (List.mem_filter.mpr ⟨hr, by simp [hsum]⟩)
      exact absurd (decide_eq_true rfl) (List.find?_eq_none.mp hfind r hmem)
  | some r' =>
    have hmem := List.mem_filter.mp (Sorting.mem_sort.mp (List.mem_of_find?_eq_some hfind))
    have he' : r'.periodEnd = r.periodEnd := by simpa using List.find?_some hfind
    rw [columns_eq_of_periodEnd_eq hmem.1 hr he']
    rfl

theorem ttmAt_eq_none (h : ∀ q ∈ quarters cf c, q.periodEnd ≠ e) : ttmAt S cf c e = none := by
  have hnone : (ttm S cf c).find? (fun r => r.periodEnd = e) = none := by
    apply List.find?_eq_none.mpr
    intro r hr he
    obtain ⟨q, hq, hqe, -⟩ := mem_columns (List.mem_filter.mp (Sorting.mem_sort.mp hr)).1
    exact h q (mem_latestQuarters hq) (hqe.trans (of_decide_eq_true he))
  rw [ttmAt, hnone]
  rfl

/-! ## Consecutive quarters -/

/-- Every fact of a single quarter is about a fiscal quarter. -/
def Calendar.Covers (cal : Calendar) (qs : List Quarter) : Prop :=
  ∀ q ∈ qs, ∃ k, q.periodEnd = cal.ends k

/-- A quarter is filed once a day. -/
def OneFiling (qs : List Quarter) : Prop :=
  ∀ p ∈ qs, ∀ q ∈ qs, p.periodEnd = q.periodEnd → p.filed = q.filed → p = q

/-- Three quarters before a quarter have a value. -/
def Calendar.ThreeBefore (cal : Calendar) (qs : List Quarter) (n : ℤ) : Prop :=
  ∃ i j k, i < j ∧ j < k ∧ k < n ∧
    cal.Available qs i ∧ cal.Available qs j ∧ cal.Available qs k

theorem filedLast_of_mem_latestQuarters (hone : OneFiling (quarters cf c))
    (hq : q ∈ latestQuarters S cf c) :
    filedLast (quarters cf c) q.periodEnd = some q.value := by
  have hmem := mem_latestQuarters hq
  exact filedLast_eq_some hmem (fun p hp => filed_le_of_mem_latestQuarters hq hp)
    fun p hp => hone p hp q hmem

theorem periodEnd_lt_of_mem_pre (h : latestQuarters S cf c = pre ++ q :: post) (hp : p ∈ pre) :
    p.periodEnd < q.periodEnd := by
  have hinc := latestQuarters_increasing S cf c
  rw [h] at hinc
  exact (List.pairwise_append.mp hinc).2.2 p hp q List.mem_cons_self

theorem exists_mem_pre (h : latestQuarters S cf c = pre ++ q :: post)
    (hn : cal.Available (quarters cf c) n) (hlt : cal.ends n < q.periodEnd) :
    ∃ p ∈ pre, p.periodEnd = cal.ends n := by
  have hinc := latestQuarters_increasing S cf c
  obtain ⟨x, hx, hxe⟩ := hn
  obtain ⟨p, hp, hpe⟩ := exists_mem_latestQuarters (S := S) hx
  rw [h] at hinc hp
  have hpost := (List.pairwise_cons.mp (List.pairwise_append.mp hinc).2.1).1
  have hlt : p.periodEnd < q.periodEnd := by rwa [hpe, hxe]
  rcases List.mem_append.mp hp with hp | hp
  · exact ⟨p, hp, hpe.trans hxe⟩
  · rcases List.mem_cons.mp hp with rfl | hp
    · exact absurd hlt (lt_irrefl _)
    · exact absurd hlt (hpost p hp).asymm

theorem rollingSum_eq_none {l : List ℚ} (h : l.length < 4) : rollingSum l = none := by
  match l, h with
  | [], _ | [_], _ | [_, _], _ | [_, _, _], _ => rfl
  | _ :: _ :: _ :: _ :: _, h => simp only [List.length_cons] at h; omega

theorem exists_last_three {α : Type} {l : List α} (h : 3 ≤ l.length) :
    ∃ old x y z, l = old ++ [x, y, z] := by
  have hlen : (l.drop (l.length - 3)).length = 3 := by rw [List.length_drop]; omega
  obtain ⟨x, y, z, hdrop⟩ := List.length_eq_three.mp hlen
  exact ⟨l.take (l.length - 3), x, y, z, by rw [← hdrop, List.take_append_drop]⟩

theorem length_of_threeBefore (h : latestQuarters S cf c = pre ++ q :: post)
    (hq : q.periodEnd = cal.ends n) (hthree : cal.ThreeBefore (quarters cf c) n) :
    3 ≤ pre.length := by
  obtain ⟨i, j, k, hij, hjk, hkn, hi, hj, hk⟩ := hthree
  have hmem {m : ℤ} (hm : cal.Available (quarters cf c) m) (hlt : m < n) :
      cal.ends m ∈ pre.map Quarter.periodEnd := by
    obtain ⟨p, hp, hpe⟩ := exists_mem_pre h hm (hq ▸ cal.increasing hlt)
    exact hpe ▸ List.mem_map_of_mem hp
  have hnodup : [cal.ends i, cal.ends j, cal.ends k].Nodup := by
    have := cal.increasing hij
    have := cal.increasing hjk
    simp only [List.nodup_cons, List.mem_cons, List.not_mem_nil, or_false, not_or,
      not_false_eq_true, List.nodup_nil, and_true]
    omega
  have hsub : [cal.ends i, cal.ends j, cal.ends k] ⊆ pre.map Quarter.periodEnd := by
    simp only [List.cons_subset, List.nil_subset, and_true]
    exact ⟨hmem hi (hij.trans (hjk.trans hkn)), hmem hj (hjk.trans hkn), hmem hk hkn⟩
  simpa using (List.subperm_of_subset hnodup hsub).length_le

section Three

variable {old : List Quarter} {x y z : Quarter}

/-- The three rows before a row are about earlier quarters, in order. -/
theorem exists_three_numbers (h : latestQuarters S cf c = (old ++ [x, y, z]) ++ q :: post)
    (hq : q.periodEnd = cal.ends n) (hcal : cal.Covers (quarters cf c)) :
    ∃ i j k, i < j ∧ j < k ∧ k < n ∧
      x.periodEnd = cal.ends i ∧ y.periodEnd = cal.ends j ∧ z.periodEnd = cal.ends k := by
  have hnumber {p : Quarter} (hp : p ∈ old ++ [x, y, z]) : ∃ k, p.periodEnd = cal.ends k :=
    hcal p (mem_latestQuarters (S := S) (h ▸ List.mem_append_left _ hp))
  obtain ⟨i, hi⟩ := hnumber (p := x) (by simp)
  obtain ⟨j, hj⟩ := hnumber (p := y) (by simp)
  obtain ⟨k, hk⟩ := hnumber (p := z) (by simp)
  have hinc := latestQuarters_increasing S cf c
  rw [h, List.append_assoc, List.pairwise_append] at hinc
  obtain ⟨hxy, hyz⟩ := List.pairwise_cons.mp hinc.2.1
  have hlt : x.periodEnd < y.periodEnd := hxy y (by simp)
  have hlt' : y.periodEnd < z.periodEnd := (List.pairwise_cons.mp hyz).1 z (by simp)
  have hlt'' : z.periodEnd < q.periodEnd := periodEnd_lt_of_mem_pre h (by simp)
  rw [hi, hj, cal.ends_lt_iff] at hlt
  rw [hj, hk, cal.ends_lt_iff] at hlt'
  rw [hk, hq, cal.ends_lt_iff] at hlt''
  exact ⟨i, j, k, hlt, hlt', hlt'', hi, hj, hk⟩

/-- They are about the three quarters just before, if these are available. -/
theorem last_three_consecutive (h : latestQuarters S cf c = (old ++ [x, y, z]) ++ q :: post)
    (hq : q.periodEnd = cal.ends n) (hcal : cal.Covers (quarters cf c))
    (h3 : cal.Available (quarters cf c) (n - 3)) (h2 : cal.Available (quarters cf c) (n - 2))
    (h1 : cal.Available (quarters cf c) (n - 1)) :
    x.periodEnd = cal.ends (n - 3) ∧ y.periodEnd = cal.ends (n - 2) ∧
      z.periodEnd = cal.ends (n - 1) := by
  obtain ⟨i, j, k, hij, hjk, hkn, hi, hj, hk⟩ := exists_three_numbers h hq hcal
  -- A quarter before this one is that of one of the three rows, or older than all of them.
  have hplace {m : ℤ} (hm : cal.Available (quarters cf c) m) (hmn : m < n) :
      m < i ∨ m = i ∨ m = j ∨ m = k := by
    obtain ⟨p, hp, hpm⟩ := exists_mem_pre h hm (hq ▸ cal.increasing hmn)
    rcases List.mem_append.mp hp with hp | hp
    · have hinc := latestQuarters_increasing S cf c
      rw [h, List.append_assoc, List.pairwise_append] at hinc
      have hlt : p.periodEnd < x.periodEnd := hinc.2.2 p hp x (by simp)
      exact .inl (cal.ends_lt_iff.mp (hpm ▸ hi ▸ hlt))
    · right
      simp only [List.mem_cons, List.not_mem_nil, or_false] at hp
      rcases hp with rfl | rfl | rfl
      · exact .inl (cal.eq_of_ends_eq (hpm.symm.trans hi))
      · exact .inr (.inl (cal.eq_of_ends_eq (hpm.symm.trans hj)))
      · exact .inr (.inr (cal.eq_of_ends_eq (hpm.symm.trans hk)))
  have hplace3 := hplace h3 (by omega)
  have hplace2 := hplace h2 (by omega)
  have hplace1 := hplace h1 (by omega)
  obtain ⟨rfl, rfl, rfl⟩ : i = n - 3 ∧ j = n - 2 ∧ k = n - 1 := by omega
  exact ⟨hi, hj, hk⟩

theorem ttmAt_of_three (h : latestQuarters S cf c = (old ++ [x, y, z]) ++ q :: post) :
    ttmAt S cf c q.periodEnd = some (x.value + y.value + z.value + q.value) := by
  rw [ttmAt_eq h]
  simp [rollingSum]

theorem trailing_of_three (h : latestQuarters S cf c = (old ++ [x, y, z]) ++ q :: post)
    (hq : q.periodEnd = cal.ends n) (hone : OneFiling (quarters cf c))
    (hx : x.periodEnd = cal.ends (n - 3)) (hy : y.periodEnd = cal.ends (n - 2))
    (hz : z.periodEnd = cal.ends (n - 1)) :
    cal.trailing (quarters cf c) n = some (x.value + y.value + z.value + q.value) := by
  have hvalue {p : Quarter} (hp : p ∈ (old ++ [x, y, z]) ++ q :: post) :
      filedLast (quarters cf c) p.periodEnd = some p.value :=
    filedLast_of_mem_latestQuarters hone (h ▸ hp)
  rw [Calendar.trailing, ← hx, ← hy, ← hz, ← hq, hvalue (p := x) (by simp),
    hvalue (p := y) (by simp), hvalue (p := z) (by simp), hvalue (p := q) (by simp)]
  rfl

end Three

theorem threeBefore_of_available (h3 : cal.Available qs (n - 3)) (h2 : cal.Available qs (n - 2))
    (h1 : cal.Available qs (n - 1)) : cal.ThreeBefore qs n :=
  ⟨n - 3, n - 2, n - 1, by omega, by omega, by omega, h3, h2, h1⟩

/-- A sum over four rows is one over four consecutive quarters exactly when the rows are: of a
quarter with three others before it, the three just before it are available. -/
theorem sum_eq_trailing_iff (hcal : cal.Covers (quarters cf c)) (hone : OneFiling (quarters cf c)) :
    ttmAt S cf c (cal.ends n) = cal.trailing (quarters cf c) n ↔
      (cal.Available (quarters cf c) n → cal.ThreeBefore (quarters cf c) n →
        cal.Available (quarters cf c) (n - 3) ∧ cal.Available (quarters cf c) (n - 2) ∧
          cal.Available (quarters cf c) (n - 1)) := by
  have hnone (hthree : ¬ (cal.Available (quarters cf c) n ∧ cal.ThreeBefore (quarters cf c) n)) :
      cal.trailing (quarters cf c) n = none := by
    cases hsum : cal.trailing (quarters cf c) n with
    | none => rfl
    | some v =>
      obtain ⟨h3, h2, h1, h0⟩ := available_of_trailing hsum
      exact absurd ⟨h0, threeBefore_of_available h3 h2 h1⟩ hthree
  by_cases hav : cal.Available (quarters cf c) n
  · obtain ⟨p, hp, hpe⟩ := hav
    obtain ⟨q, hq, hqe⟩ := exists_mem_latestQuarters (S := S) hp
    obtain ⟨pre, post, h⟩ := List.append_of_mem hq
    have hqn : q.periodEnd = cal.ends n := hqe.trans hpe
    by_cases hlen : 3 ≤ pre.length
    · obtain ⟨old, x, y, z, rfl⟩ := exists_last_three hlen
      have hsum : ttmAt S cf c (cal.ends n) = some _ := hqn ▸ ttmAt_of_three h
      constructor
      · intro heq _ _
        obtain ⟨h3, h2, h1, -⟩ := available_of_trailing (heq.symm.trans hsum)
        exact ⟨h3, h2, h1⟩
      · intro hcons
        have hmem {r : Quarter} (hr : r ∈ (old ++ [x, y, z]) ++ q :: post) : r ∈ quarters cf c :=
          mem_latestQuarters (S := S) (h ▸ hr)
        obtain ⟨i, j, k, hij, hjk, hkn, hi, hj, hk⟩ := exists_three_numbers h hqn hcal
        obtain ⟨h3, h2, h1⟩ := hcons ⟨p, hp, hpe⟩ ⟨i, j, k, hij, hjk, hkn,
          ⟨x, hmem (by simp), hi⟩, ⟨y, hmem (by simp), hj⟩, ⟨z, hmem (by simp), hk⟩⟩
        obtain ⟨hx, hy, hz⟩ := last_three_consecutive h hqn hcal h3 h2 h1
        rw [hsum, trailing_of_three h hqn hone hx hy hz]
    · have hshort : ¬ cal.ThreeBefore (quarters cf c) n := fun hthree =>
        hlen (length_of_threeBefore h hqn hthree)
      have hsum : ttmAt S cf c (cal.ends n) = none := by
        rw [← hqn, ttmAt_eq h]
        exact rollingSum_eq_none (by simp; omega)
      rw [hsum, hnone fun hthree => hshort hthree.2]
      exact iff_of_true rfl fun _ hthree => absurd hthree hshort
  · have hsum : ttmAt S cf c (cal.ends n) = none :=
      ttmAt_eq_none fun q hq hqe => hav ⟨q, hq, hqe⟩
    rw [hsum, hnone fun hthree => hav hthree.1]
    exact iff_of_true rfl fun h => absurd h hav

theorem oneFiling_stored {table : List Row} {symbol : String} :
    OneFiling (quarters (stored table symbol) c) := by
  intro p hp q hq he hf
  obtain ⟨f, hf', rfl⟩ := List.mem_map.mp hp
  obtain ⟨g, hg', rfl⟩ := List.mem_map.mp hq
  obtain ⟨hfs, hfc⟩ := List.mem_filter.mp hf'
  obtain ⟨hgs, hgc⟩ := List.mem_filter.mp hg'
  obtain ⟨form, hlast⟩ := mem_stored.mp hfs
  obtain ⟨form', hlast'⟩ := mem_stored.mp hgs
  have hfc := (of_decide_eq_true hfc).1
  have hgc := (of_decide_eq_true hgc).1
  simp only at he hf
  rw [hfc, he, hf, ← hgc, hlast'] at hlast
  cases hlast
  rfl

/-- The `ttm` of a period end, read from any table, is the sum over the four consecutive fiscal
quarters that end there, and missing if one of them is, exactly when the quarter is not
available, has no three others before it, or has the three just before it. -/
theorem ttmAt_stored_iff (S : Sorting) (table : List Row) (symbol : String) (c : Concept)
    (cal : Calendar) (hcal : cal.Covers (quarters (stored table symbol) c)) (n : ℤ) :
    ttmAt S (stored table symbol) c (cal.ends n) =
        cal.trailing (quarters (stored table symbol) c) n ↔
      (cal.Available (quarters (stored table symbol) c) n →
        cal.ThreeBefore (quarters (stored table symbol) c) n →
          cal.Available (quarters (stored table symbol) c) (n - 3) ∧
            cal.Available (quarters (stored table symbol) c) (n - 2) ∧
              cal.Available (quarters (stored table symbol) c) (n - 1)) :=
  sum_eq_trailing_iff hcal oneFiling_stored

def ninety : Calendar where
  ends k := 90 * k
  increasing h := Int.mul_lt_mul_of_pos_left h (by decide)

theorem ninety_covers (h : ∀ q ∈ qs, q.periodEnd % 90 = 0) : ninety.Covers qs := by
  intro q hq
  refine ⟨q.periodEnd / 90, ?_⟩
  have hmod := h q hq
  simp only [ninety]
  omega

/-- Three quarters of a year and the first of the next; the fourth is in the annual report only. -/
def annualFourth : List Row :=
  [⟨"AAPL", ⟨.netIncome, 90, 120, 90, 10⟩, "10-Q"⟩,
    ⟨"AAPL", ⟨.netIncome, 180, 210, 90, 20⟩, "10-Q"⟩,
    ⟨"AAPL", ⟨.netIncome, 270, 300, 90, 30⟩, "10-Q"⟩,
    ⟨"AAPL", ⟨.netIncome, 360, 420, 360, 100⟩, "10-K"⟩,
    ⟨"AAPL", ⟨.netIncome, 450, 480, 90, 50⟩, "10-Q"⟩]

theorem ttmAt_stored_iff_annual :
    ttmAt Sorting.insertion (stored annualFourth "AAPL") .netIncome (ninety.ends 5) ≠
      ninety.trailing (quarters (stored annualFourth "AAPL") .netIncome) 5 := by
  intro h
  have hcal : ninety.Covers (quarters (stored annualFourth "AAPL") .netIncome) :=
    ninety_covers (by decide +kernel)
  have hthree : ninety.ThreeBefore (quarters (stored annualFourth "AAPL") .netIncome) 5 :=
    ⟨1, 2, 3, by decide +kernel⟩
  have hfour := (ttmAt_stored_iff Sorting.insertion annualFourth "AAPL" .netIncome ninety hcal 5).mp
    h (by decide +kernel) hthree
  revert hfour
  decide +kernel

/-- The first quarter sums up with the three quarters of the year before. -/
theorem fourth_quarter_skipped :
    (∀ q ∈ quarters (stored annualFourth "AAPL") .netIncome, q.periodEnd % 90 = 0) ∧
    ninety.trailing (quarters (stored annualFourth "AAPL") .netIncome) 5 = none ∧
    ttmAt Sorting.insertion (stored annualFourth "AAPL") .netIncome (ninety.ends 5) =
      some (10 + 20 + 30 + 50) := by
  decide +kernel

end QuantTrader.Fundamentals
