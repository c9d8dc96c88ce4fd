import Mathlib.Data.List.Nodup
import Mathlib.Tactic.Linarith
import QuantTrader.Backfill.Upbit
import QuantTrader.Transition.Run

/-! # A cache without gaps

A fetch writes the newest candles of its range from the top, so what it leaves
when it ends early has no gap. Towards the past it always adjoins the cache;
towards the present it does so once it has reached the newest cached candle.
-/

namespace QuantTrader.Backfill

open Transition

variable {api : Api} {V : Candle → Prop} {W rows : List Candle} {before : Option ℤ}
  {seen lowerBound completeUntil : ℤ}

/-! ## Blocks -/

/-- Rows that hold, of some candles, all the ones above any of them. -/
structure Top (V : Candle → Prop) (W : List Candle) : Prop where
  sub : ∀ c ∈ W, V c
  up : ∀ c ∈ W, ∀ c', V c' → c.ts ≤ c'.ts → c' ∈ W

/-- From new to old. -/
def Descending (W : List Candle) : Prop := W.Pairwise fun a b => b.ts < a.ts

theorem Top.nil : Top V [] := ⟨nofun, nofun⟩

/-- The rows written before an interruption are a block from the top, too. -/
theorem Top.take (h : Top V W) (hd : Descending W) (n : ℕ) : Top V (W.take n) where
  sub c hc := h.sub c (List.mem_of_mem_take hc)
  up c hc c' hV hle := by
    have hc' := h.up c (List.mem_of_mem_take hc) c' hV hle
    unfold Descending at hd
    rw [← List.take_append_drop n W] at hc' hd
    rcases List.mem_append.mp hc' with hmem | hmem
    · exact hmem
    · have hlt := (List.pairwise_append.mp hd).2.2 c hc c' hmem
      omega

theorem Api.mem_visible {c : Candle} :
    c ∈ api.visible seen before ↔ c ∈ api.candles ∧ c.ts ≤ seen ∧ ∀ u ∈ before, c.ts < u := by
  simp [visible]

theorem Api.visible_descending : Descending (api.visible seen before) :=
  api.sorted.filter _

theorem Api.visible_below {c : Candle} (h : c ∈ api.visible seen before) :
    api.visible seen (some c.ts) = (api.visible seen before).filter fun x => x.ts < c.ts := by
  unfold visible
  rw [List.filter_filter]
  apply List.filter_congr
  intro x _
  have hbefore := (mem_visible.mp h).2.2
  rw [Bool.eq_iff_iff]
  simp only [Option.mem_def, Option.some.injEq, forall_eq', decide_eq_true_eq, Bool.and_eq_true]
  constructor
  · rintro ⟨hseen, hlt⟩
    exact ⟨hlt, hseen, fun u hu => hlt.trans (hbefore u hu)⟩
  · rintro ⟨hlt, hseen, -⟩
    exact ⟨hseen, hlt⟩

/-- A page and its oldest candle part the visible candles. -/
theorem Api.page_spec {oldest : Candle} (h : (api.page seen before).getLast? = some oldest) :
    oldest ∈ api.visible seen before ∧
      ∀ c, c ∈ api.page seen before ↔ c ∈ api.visible seen before ∧ oldest.ts ≤ c.ts := by
  have hd : Descending (api.visible seen before) := visible_descending
  unfold Descending at hd
  unfold page at h ⊢
  obtain ⟨pre, hpre⟩ := List.getLast?_eq_some_iff.mp h
  have hmem : oldest ∈ (api.visible seen before).take pageSize := by rw [hpre]; simp
  refine ⟨List.mem_of_mem_take hmem, fun c => ⟨fun hc => ⟨List.mem_of_mem_take hc, ?_⟩, ?_⟩⟩
  · have hd' := hd.sublist (List.take_sublist pageSize _)
    rw [hpre, List.pairwise_append] at hd'
    rw [hpre] at hc
    rcases List.mem_append.mp hc with hc | hc
    · exact (hd'.2.2 c hc oldest (List.mem_singleton_self _)).le
    · rw [List.mem_singleton.mp hc]
  · rintro ⟨hc, hle⟩
    rw [← List.take_append_drop pageSize (api.visible seen before)] at hc hd
    rcases List.mem_append.mp hc with hc | hc
    · exact hc
    · have hlt := (List.pairwise_append.mp hd).2.2 oldest hmem c hc
      omega

theorem Api.page_of_short (h : (api.page seen before).length < Api.pageSize) :
    api.page seen before = api.visible seen before := by
  unfold page at h ⊢
  rw [List.length_take] at h
  exact List.take_of_length_le (by omega)

/-- A fetch writes, from the top, all complete candles down to its bound. -/
structure Fetched (V : Candle → Prop) (lowerBound : ℤ) (W : List Candle) : Prop where
  top : Top V W
  descending : Descending W
  reached : ∀ c, V c → lowerBound ≤ c.ts → c ∈ W

section Pages

variable {V : Candle → Prop} {k lowerBound : ℤ} {P W : List Candle}

theorem Fetched.of_page (hP : ∀ c, c ∈ P ↔ V c ∧ k ≤ c.ts) (hd : Descending P)
    (hreached : ∀ c, V c → lowerBound ≤ c.ts → k ≤ c.ts) : Fetched V lowerBound P where
  top := by
    constructor
    · intro c hc
      exact ((hP c).mp hc).1
    · intro c hc c' hV hle
      exact (hP c').mpr ⟨hV, ((hP c).mp hc).2.trans hle⟩
  descending := hd
  reached c hV hle := (hP c).mpr ⟨hV, hreached c hV hle⟩

/-- A page and a fetch of what lies below its oldest candle are a fetch. -/
theorem Fetched.append (hP : ∀ c, c ∈ P ↔ V c ∧ k ≤ c.ts) (hd : Descending P)
    (h : Fetched (fun c => V c ∧ c.ts < k) lowerBound W) : Fetched V lowerBound (P ++ W) := by
  -- a candle is in the page or below it
  have hsplit : ∀ c, V c → (c.ts < k → c ∈ W) → c ∈ P ++ W := by
    intro c hV hW
    rcases le_or_gt k c.ts with hk | hk
    · exact List.mem_append_left _ ((hP c).mpr ⟨hV, hk⟩)
    · exact List.mem_append_right _ (hW hk)
  refine ⟨⟨?_, ?_⟩, ?_, ?_⟩
  · intro c hc
    rcases List.mem_append.mp hc with hc | hc
    · exact ((hP c).mp hc).1
    · exact (h.top.sub c hc).1
  · intro c hc c' hV hle
    refine hsplit c' hV fun hk => ?_
    rcases List.mem_append.mp hc with hc | hc
    · have := ((hP c).mp hc).2
      omega
    · exact h.top.up c hc c' ⟨hV, hk⟩ hle
  · refine List.pairwise_append.mpr ⟨hd, h.descending, ?_⟩
    intro a ha b hb
    have hle := ((hP a).mp ha).2
    have hlt := (h.top.sub b hb).2
    omega
  · intro c hV hle
    exact hsplit c hV fun hk => h.reached c ⟨hV, hk⟩ hle

end Pages

theorem Api.visible_shrinks {oldest : Candle} (h : oldest ∈ api.visible seen before) :
    (api.visible seen (some oldest.ts)).length < (api.visible seen before).length := by
  rw [visible_below h, List.length_filter_lt_length_iff_exists]
  exact ⟨oldest, h, by simp⟩

theorem Api.fetchLoop_spec {fuel : ℕ} (hfuel : (api.visible seen before).length < fuel) :
    Fetched (fun c => c ∈ api.visible seen before ∧ c.ts < completeUntil) lowerBound
      (api.fetchLoop seen lowerBound completeUntil fuel before) := by
  induction fuel generalizing before with
  | zero => omega
  | succ fuel ih =>
    unfold fetchLoop
    cases hlast : (api.page seen before).getLast? with
    | none =>
      have hnil : api.visible seen before = [] := by
        have hpage := List.getLast?_eq_none_iff.mp hlast
        rw [page_of_short (by rw [hpage]; decide)] at hpage
        exact hpage
      refine ⟨Top.nil, List.Pairwise.nil, ?_⟩
      rintro c ⟨hc, -⟩
      rw [hnil] at hc
      cases hc
    | some oldest =>
      obtain ⟨hold, hpage⟩ := page_spec hlast
      have hmem : ∀ c, c ∈ ((api.page seen before).filter fun c => c.ts < completeUntil) ↔
          (c ∈ api.visible seen before ∧ c.ts < completeUntil) ∧ oldest.ts ≤ c.ts := by
        intro c
        rw [List.mem_filter, hpage, decide_eq_true_eq, and_right_comm]
      have hdesc : Descending ((api.page seen before).filter fun c => c.ts < completeUntil) :=
        (visible_descending.sublist (List.take_sublist _ _)).filter _
      dsimp only
      split_ifs with hstop
      · refine .of_page hmem hdesc ?_
        rintro c ⟨hc, -⟩ hle
        rcases hstop with hreached | hshort
        · exact hreached.trans hle
        · rw [← page_of_short hshort] at hc
          exact ((hpage c).mp hc).2
      · have hshrinks := visible_shrinks hold
        refine .append hmem hdesc ?_
        have hbelow : (fun c : Candle => (c ∈ api.visible seen before ∧ c.ts < completeUntil) ∧
            c.ts < oldest.ts) =
            fun c => c ∈ api.visible seen (some oldest.ts) ∧ c.ts < completeUntil := by
          ext c
          rw [visible_below hold, List.mem_filter, decide_eq_true_eq, and_right_comm]
        rw [hbelow]
        exact ih (by omega)

theorem Api.fetchBackward_spec :
    Fetched (fun c => c ∈ api.visible seen before ∧ c.ts < completeUntil) lowerBound
      (api.fetchBackward seen lowerBound completeUntil before) :=
  fetchLoop_spec (Nat.lt_succ_of_le (List.length_filter_le _ _))

/-! ## Scanning and sorting -/

theorem extremes_eq_none_iff : extremes rows = none ↔ rows = [] := by
  cases rows with
  | nil => simp [extremes]
  | cons c rows =>
    rw [extremes]
    cases extremes rows <;> simp

theorem extremes_spec {oldest newest : ℤ} (h : extremes rows = some (oldest, newest)) :
    (∃ c ∈ rows, c.ts = oldest) ∧ ∃ c ∈ rows, c.ts = newest := by
  induction rows generalizing oldest newest with
  | nil => cases h
  | cons c rows ih =>
    rw [extremes] at h
    cases hr : extremes rows with
    | none =>
      simp only [hr] at h
      obtain ⟨rfl, rfl⟩ := Prod.mk.inj (Option.some.inj h)
      exact ⟨⟨c, List.mem_cons_self, rfl⟩, ⟨c, List.mem_cons_self, rfl⟩⟩
    | some p =>
      obtain ⟨o, n⟩ := p
      simp only [hr] at h
      obtain ⟨rfl, rfl⟩ := Prod.mk.inj (Option.some.inj h)
      obtain ⟨⟨a, ha, rfl⟩, ⟨b, hb, rfl⟩⟩ := ih hr
      constructor
      · rcases min_choice c.ts a.ts with hm | hm <;> rw [hm]
        · exact ⟨c, List.mem_cons_self, rfl⟩
        · exact ⟨a, List.mem_cons_of_mem _ ha, rfl⟩
      · rcases max_choice c.ts b.ts with hm | hm <;> rw [hm]
        · exact ⟨c, List.mem_cons_self, rfl⟩
        · exact ⟨b, List.mem_cons_of_mem _ hb, rfl⟩

/-- From old to new, each start once. -/
def Ascending (rows : List Candle) : Prop := rows.Pairwise fun a b => a.ts < b.ts

theorem mem_setRow {r c : Candle} : c ∈ setRow r rows → c = r ∨ c ∈ rows := by
  induction rows with
  | nil => simp [setRow]
  | cons a rows ih =>
    unfold setRow
    split_ifs
    · simp
    · intro h
      rcases List.mem_cons.mp h with rfl | h
      · exact Or.inl rfl
      · exact Or.inr (List.mem_cons_of_mem _ h)
    · intro h
      rcases List.mem_cons.mp h with rfl | h
      · exact Or.inr List.mem_cons_self
      · exact (ih h).imp_right (List.mem_cons_of_mem _)

theorem self_mem_setRow (r : Candle) (rows : List Candle) : r ∈ setRow r rows := by
  induction rows with
  | nil => simp [setRow]
  | cons a rows ih =>
    unfold setRow
    split_ifs
    · exact List.mem_cons_self
    · exact List.mem_cons_self
    · exact List.mem_cons_of_mem _ ih

theorem mem_setRow_of_ne {r c : Candle} (hc : c ∈ rows) (hne : c.ts ≠ r.ts) :
    c ∈ setRow r rows := by
  induction rows with
  | nil => cases hc
  | cons a rows ih =>
    unfold setRow
    split_ifs with hlt heq
    · exact List.mem_cons_of_mem _ hc
    · rcases List.mem_cons.mp hc with rfl | hc
      · exact absurd heq.symm hne
      · exact List.mem_cons_of_mem _ hc
    · rcases List.mem_cons.mp hc with rfl | hc
      · exact List.mem_cons_self
      · exact List.mem_cons_of_mem _ (ih hc)

theorem Ascending.setRow (h : Ascending rows) (r : Candle) : Ascending (setRow r rows) := by
  induction rows with
  | nil => exact List.pairwise_singleton _ _
  | cons a rows ih =>
    obtain ⟨ha, hrows⟩ := List.pairwise_cons.mp h
    unfold Backfill.setRow
    split_ifs with hlt heq
    · refine List.pairwise_cons.mpr ⟨?_, h⟩
      intro c hc
      rcases List.mem_cons.mp hc with rfl | hc
      · exact hlt
      · exact hlt.trans (ha c hc)
    · refine List.pairwise_cons.mpr ⟨?_, hrows⟩
      intro c hc
      rw [heq]
      exact ha c hc
    · refine List.pairwise_cons.mpr ⟨?_, ih hrows⟩
      intro c hc
      rcases mem_setRow hc with rfl | hc
      · omega
      · exact ha c hc

theorem Api.eq_of_ts_eq {a b : Candle} (ha : a ∈ api.candles) (hb : b ∈ api.candles)
    (h : a.ts = b.ts) : a = b := by
  have hinj : Set.InjOn Candle.ts {c | c ∈ api.candles} := by
    apply List.inj_on_of_nodup_map
    exact List.pairwise_map.mpr (api.sorted.imp fun h => h.ne')
  exact hinj ha hb h

theorem mem_sorted_iff (h : ∀ c ∈ rows, c ∈ api.candles) :
    Ascending (rows.foldl (fun acc r => setRow r acc) []) ∧
      ∀ c, c ∈ rows.foldl (fun acc r => setRow r acc) [] ↔ c ∈ rows := by
  induction rows using List.reverseRecOn with
  | nil => exact ⟨List.Pairwise.nil, fun c => Iff.rfl⟩
  | append_singleton rows r ih =>
    obtain ⟨hasc, hmem⟩ := ih fun c hc => h c (List.mem_append_left _ hc)
    rw [List.foldl_append]
    refine ⟨hasc.setRow r, ?_⟩
    intro c
    rw [List.mem_append, List.mem_singleton]
    constructor
    · intro hc
      rcases mem_setRow hc with rfl | hc
      · exact Or.inr rfl
      · exact Or.inl ((hmem c).mp hc)
    · rintro (hc | rfl)
      · by_cases hts : c.ts = r.ts
        · obtain rfl := Api.eq_of_ts_eq (h c (by simp [hc])) (h r (by simp)) hts
          exact self_mem_setRow _ _
        · exact mem_setRow_of_ne ((hmem c).mpr hc) hts
      · exact self_mem_setRow _ _

theorem mem_of_finalize {f f' : File} (h : finalize f = .ok f') {c : Candle} (hc : c ∈ f'.rows) :
    c ∈ f.rows := by
  have hsub : ∀ rows : List Candle, c ∈ rows.foldl (fun acc r => setRow r acc) [] → c ∈ rows := by
    intro rows
    induction rows using List.reverseRecOn with
    | nil => exact id
    | append_singleton rows r ih =>
      rw [List.foldl_append, List.mem_append, List.mem_singleton]
      intro hmem
      rcases mem_setRow hmem with rfl | hmem
      · exact Or.inr rfl
      · exact Or.inl (ih hmem)
  obtain ⟨rows, hrows, hf⟩ := bind_ok_iff.mp h
  obtain rfl := Except.ok.inj hf
  unfold File.read at hrows
  split_ifs at hrows
  · obtain rfl := Except.ok.inj hrows
    exact hsub _ hc
  · obtain rfl := Except.ok.inj hrows
    cases hsub _ hc

/-! ## Caches without gaps -/

/-- The rows are candles of the history below a limit, with no gap between any two of them. -/
structure Solid (api : Api) (limit : ℤ) (rows : List Candle) : Prop where
  sub : ∀ c ∈ rows, c ∈ api.candles ∧ c.ts < limit
  convex : ∀ a ∈ rows, ∀ b ∈ rows, ∀ c ∈ api.candles, a.ts ≤ c.ts → c.ts ≤ b.ts → c ∈ rows

namespace Solid

variable {limit : ℤ}

theorem nil : Solid api limit [] := ⟨nofun, nofun⟩

theorem mono (h : Solid api limit rows) {limit' : ℤ} (hle : limit ≤ limit') :
    Solid api limit' rows :=
  ⟨fun c hc => ⟨(h.sub c hc).1, (h.sub c hc).2.trans_le hle⟩, h.convex⟩

theorem of_mem_iff (h : Solid api limit rows) {rows' : List Candle}
    (hmem : ∀ c, c ∈ rows' ↔ c ∈ rows) : Solid api limit rows' where
  sub c hc := h.sub c ((hmem c).mp hc)
  convex a ha b hb c hc hac hcb :=
    (hmem c).mpr (h.convex a ((hmem a).mp ha) b ((hmem b).mp hb) c hc hac hcb)

theorem of_top (h : Top (fun c => c ∈ api.candles ∧ c.ts < limit) W) : Solid api limit W where
  sub := h.sub
  convex a ha b hb c hc hac hcb :=
    h.up a ha c ⟨hc, hcb.trans_lt (h.sub b hb).2⟩ hac

/-- The newest candles adjoin a cache if they are all the ones above its newest row. -/
theorem append_newer (h : Solid api limit rows) {newest : Candle} (hn : newest ∈ rows)
    (hW : Top (fun c => c ∈ api.candles ∧ c.ts < limit) W)
    (hreach : ∀ c ∈ api.candles, newest.ts < c.ts → c.ts < limit → c ∈ W) :
    Solid api limit (rows ++ W) := by
  constructor
  · intro c hc
    exact (List.mem_append.mp hc).elim (h.sub c) (hW.sub c)
  intro a ha b hb c hc hac hcb
  have hlimit : c.ts < limit :=
    hcb.trans_lt ((List.mem_append.mp hb).elim (fun hb => (h.sub b hb).2) fun hb => (hW.sub b hb).2)
  by_cases hcn : newest.ts < c.ts
  · exact List.mem_append_right _ (hreach c hc hcn hlimit)
  · rcases List.mem_append.mp ha with ha | ha
    · exact List.mem_append_left _ (h.convex a ha newest hn c hc hac (by omega))
    · exact List.mem_append_right _ (hW.up a ha c ⟨hc, hlimit⟩ hac)

theorem append_older (h : Solid api limit rows) {oldest : Candle} (ho : oldest ∈ rows)
    (hW : Top (fun c => c ∈ api.candles ∧ c.ts < oldest.ts) W) : Solid api limit (rows ++ W) := by
  refine ⟨?_, ?_⟩
  · intro c hc
    refine (List.mem_append.mp hc).elim (h.sub c) fun hc => ?_
    exact ⟨(hW.sub c hc).1, (hW.sub c hc).2.trans (h.sub oldest ho).2⟩
  intro a ha b hb c hc hac hcb
  by_cases hco : c.ts < oldest.ts
  · rcases List.mem_append.mp ha with ha | ha
    · exact List.mem_append_left _ (h.convex a ha oldest ho c hc hac hco.le)
    · exact List.mem_append_right _ (hW.up a ha c ⟨hc, hco⟩ hac)
  · rcases List.mem_append.mp hb with hb | hb
    · exact List.mem_append_left _ (h.convex oldest ho b hb c hc (by omega) hcb)
    · have := (hW.sub b hb).2
      omega

end Solid

/-! ## Runs -/

theorem Api.completeUntil_le (api : Api) (now : ℤ) : api.completeUntil now ≤ now * 1000 := by
  have hpos := api.unit_pos
  have hle := Int.ediv_mul_le now (b := (api.unit : ℤ) * 60) (by omega)
  unfold completeUntil
  omega

theorem Api.completeUntil_mono (api : Api) {t t' : ℤ} (h : t ≤ t') :
    api.completeUntil t ≤ api.completeUntil t' := by
  have hle := Int.ediv_le_ediv (c := (api.unit : ℤ) * 60) (by have := api.unit_pos; omega) h
  have hmul := Int.mul_le_mul_of_nonneg_right hle (show (0 : ℤ) ≤ api.unit * 60 by omega)
  unfold completeUntil
  omega

theorem Fetched.congr {V' : Candle → Prop} (h : Fetched V lowerBound W)
    (hV : ∀ c, V c ↔ V' c) : Fetched V' lowerBound W := by
  obtain rfl : V = V' := funext fun c => propext (hV c)
  exact h

namespace Run

variable {r : Run} {oldest : ℤ}

theorem newer_fetched (api : Api) (oldest newest : ℤ) (hat : r.now * 1000 ≤ r.newerAt) :
    Fetched (fun c => c ∈ api.candles ∧ c.ts < api.completeUntil r.now) newest
      (r.newer api (some (oldest, newest))) := by
  have hle := api.completeUntil_le r.now
  apply Api.fetchBackward_spec.congr
  intro c
  rw [Api.mem_visible]
  constructor
  · rintro ⟨⟨hc, -⟩, hlt⟩
    exact ⟨hc, hlt⟩
  · rintro ⟨hc, hlt⟩
    exact ⟨⟨hc, by omega, nofun⟩, hlt⟩

theorem older_fetched (api : Api) (newest : ℤ) (hat : r.now * 1000 ≤ r.olderAt)
    (hold : oldest < api.completeUntil r.now) (hcut : r.cutoff < oldest) :
    Fetched (fun c => c ∈ api.candles ∧ c.ts < oldest) r.cutoff
      (r.older api (some (oldest, newest))) := by
  have hle := api.completeUntil_le r.now
  unfold older
  dsimp only
  rw [if_pos hcut]
  apply Api.fetchBackward_spec.congr
  intro c
  rw [Api.mem_visible]
  constructor
  · rintro ⟨⟨hc, -, hlt⟩, -⟩
    exact ⟨hc, hlt oldest rfl⟩
  · rintro ⟨hc, hlt⟩
    refine ⟨⟨hc, by omega, ?_⟩, by omega⟩
    rintro u ⟨⟩
    exact hlt

theorem first_fetched (api : Api) (hat : r.now * 1000 ≤ r.olderAt) :
    Fetched (fun c => c ∈ api.candles ∧ c.ts < api.completeUntil r.now) r.cutoff
      (r.older api none) := by
  have hle := api.completeUntil_le r.now
  apply Api.fetchBackward_spec.congr
  intro c
  rw [Api.mem_visible]
  constructor
  · rintro ⟨⟨hc, -⟩, hlt⟩
    exact ⟨hc, hlt⟩
  · rintro ⟨hc, hlt⟩
    exact ⟨⟨hc, by omega, nofun⟩, hlt⟩

/-- The first `n` rows of the newer direction are none, or all that the cache lacks. -/
def Closes (api : Api) (r : Run) (scanned : Option (ℤ × ℤ)) (n : ℕ) : Prop :=
  (r.newer api scanned).take n = [] ∨
    ∀ p ∈ scanned, ∀ c ∈ (r.newer api scanned).drop n, c.ts ≤ p.2

instance (scanned : Option (ℤ × ℤ)) (n : ℕ) : Decidable (r.Closes api scanned n) :=
  inferInstanceAs (Decidable (_ ∨ _))

theorem newer_solid (h : Solid api (api.completeUntil r.now) rows)
    (hat : r.now * 1000 ≤ r.newerAt) {n : ℕ} (hn : r.Closes api (extremes rows) n) :
    Solid api (api.completeUntil r.now) (rows ++ (r.newer api (extremes rows)).take n) := by
  rcases hn with hnil | hrest
  · rw [hnil, List.append_nil]
    exact h
  cases hs : extremes rows with
  | none =>
    rw [newer, List.take_nil, List.append_nil]
    exact h
  | some p =>
    obtain ⟨oldest, newest⟩ := p
    rw [hs] at hrest
    obtain ⟨-, c, hc, rfl⟩ := extremes_spec hs
    have hf := newer_fetched api oldest c.ts hat
    refine h.append_newer hc (hf.top.take hf.descending n) ?_
    intro c' hc' hlt hlimit
    have hmem := hf.reached c' ⟨hc', hlimit⟩ hlt.le
    rw [← List.take_append_drop n (r.newer api _)] at hmem
    rcases List.mem_append.mp hmem with hmem | hmem
    · exact hmem
    · have := hrest _ rfl c' hmem
      omega

theorem closes_all (scanned : Option (ℤ × ℤ)) :
    r.Closes api scanned (r.newer api scanned).length :=
  Or.inr fun _ _ c hc => by simp at hc

theorem older_solid (h : Solid api (api.completeUntil r.now) rows)
    (hnewer : r.now * 1000 ≤ r.newerAt) (holder : r.now * 1000 ≤ r.olderAt) (n : ℕ) :
    Solid api (api.completeUntil r.now)
      (rows ++ (r.newer api (extremes rows) ++ (r.older api (extremes rows)).take n)) := by
  have hsolid := newer_solid h hnewer (closes_all _)
  rw [List.take_length] at hsolid
  cases hs : extremes rows with
  | none =>
    obtain rfl := extremes_eq_none_iff.mp hs
    have hf := first_fetched api holder
    exact Solid.of_top (hf.top.take hf.descending n)
  | some p =>
    obtain ⟨oldest, newest⟩ := p
    rw [hs] at hsolid
    obtain ⟨⟨c, hc, rfl⟩, -⟩ := extremes_spec hs
    rw [← List.append_assoc]
    by_cases hcut : r.cutoff < c.ts
    · have hf := older_fetched api newest holder (h.sub c hc).2 hcut
      exact hsolid.append_older (List.mem_append_left _ hc) (hf.top.take hf.descending n)
    · rw [older, if_neg hcut, List.take_nil, List.append_nil]
      exact hsolid

/-- A run that goes through has all the complete candles from its cutoff on. -/
theorem mem_complete (h : Solid api (api.completeUntil r.now) rows)
    (hnewer : r.now * 1000 ≤ r.newerAt) (holder : r.now * 1000 ≤ r.olderAt) {c : Candle}
    (hc : c ∈ api.candles) (hcut : r.cutoff ≤ c.ts) (hlt : c.ts < api.completeUntil r.now) :
    c ∈ rows ++ (r.newer api (extremes rows) ++ r.older api (extremes rows)) := by
  cases hs : extremes rows with
  | none =>
    have hmem := (first_fetched api holder).reached c ⟨hc, hlt⟩ hcut
    simp [hmem]
  | some p =>
    obtain ⟨oldest, newest⟩ := p
    obtain ⟨⟨a, ha, rfl⟩, b, hb, rfl⟩ := extremes_spec hs
    rcases lt_or_ge c.ts a.ts with hlow | hlow
    · have hf := older_fetched api b.ts holder (h.sub a ha).2 (by omega)
      have hmem := hf.reached c ⟨hc, hlow⟩ hcut
      simp [hmem]
    rcases le_or_gt b.ts c.ts with hhigh | hhigh
    · have hmem := (newer_fetched api a.ts b.ts hnewer).reached c ⟨hc, hlt⟩ hhigh
      simp [hmem]
    · exact List.mem_append_left _ (h.convex a ha b hb c hc hlow hhigh.le)

end Run

/-- Before any run there is no file. -/
def World.init (clock : ℤ) : World := ⟨clock, none⟩

/-- An interruption leaves the header, and either nothing newer than the cache or all of it. -/
def Event.Spares (api : Api) (w : World) : Event → Prop
  | .stop _ .unflushed => w.file.isSome = true
  | .stop r (.newer n) => ∀ scanned ∈ (scanDt w.file).toOption, r.Closes api scanned n
  | _ => True

instance (w : World) (e : Event) : Decidable (e.Spares api w) := by
  unfold Event.Spares
  split <;> infer_instance

/-- The cache has its header and no gap. -/
def Inv (api : Api) (w : World) : Prop :=
  ∀ f ∈ w.file, f.header = true ∧ Solid api (api.completeUntil w.clock) f.rows

section Step

variable {w : World} {r : Run} {f : File}

/-- The rows of the cache, if there is one. -/
def World.cached (w : World) : List Candle := (w.file.map File.rows).getD []

theorem Inv.scanDt_eq (h : Inv api w) : scanDt w.file = .ok (extremes w.cached) := by
  unfold World.cached
  cases hf : w.file with
  | none => rfl
  | some f =>
    rw [scanDt, File.read, if_pos (h f hf).1]
    rfl

theorem Inv.solid (h : Inv api w) (hclock : w.clock ≤ r.now) :
    Solid api (api.completeUntil r.now) w.cached := by
  unfold World.cached
  cases hf : w.file with
  | none => exact Solid.nil
  | some f => exact (h f hf).2.mono (api.completeUntil_mono hclock)

theorem Inv.append_eq (h : Inv api w) (W : List Candle) :
    append w.file W = ⟨true, w.cached ++ W⟩ := by
  unfold World.cached
  cases hf : w.file with
  | none => rfl
  | some f =>
    rw [append, ← (h f hf).1]
    rfl

theorem Inv.complete_eq (h : Inv api w) :
    r.complete api w.file = .ok ⟨true, (w.cached ++ (r.newer api (extremes w.cached) ++
      r.older api (extremes w.cached))).foldl (fun acc r => setRow r acc) []⟩ := by
  unfold Run.complete
  rw [h.scanDt_eq]
  show finalize (append w.file _) = _
  rw [h.append_eq]
  rfl

/-- The file after a run that goes through: the rows from the cutoff on, in order. -/
theorem Inv.complete (h : Inv api w) (hclock : w.clock ≤ r.now)
    (hnewer : r.now * 1000 ≤ r.newerAt) (holder : r.now * 1000 ≤ r.olderAt) :
    ∃ f, r.complete api w.file = .ok f ∧ f.header = true ∧ Ascending f.rows ∧
      Solid api (api.completeUntil r.now) f.rows ∧
      ∀ c ∈ api.candles, r.cutoff ≤ c.ts → c.ts < api.completeUntil r.now → c ∈ f.rows := by
  have hsolid := h.solid hclock
  have hall := Run.older_solid hsolid hnewer holder (r.older api (extremes w.cached)).length
  rw [List.take_length] at hall
  obtain ⟨hasc, hmem⟩ := mem_sorted_iff fun c hc => (hall.sub c hc).1
  refine ⟨_, h.complete_eq, rfl, hasc, hall.of_mem_iff hmem, ?_⟩
  intro c hc hcut hlt
  exact (hmem c).mpr (Run.mem_complete hsolid hnewer holder hc hcut hlt)

theorem Inv.stop {s : Stop} (h : Inv api w) (he : (Event.stop r s).Enabled api w)
    (hs : (Event.stop r s).Spares api w) : Inv api ((Event.stop r s).next api w) := by
  obtain ⟨hclock, hnewer, holder, -⟩ := he
  have hsolid := h.solid hclock
  intro f hf
  simp only [Event.next, Event.run, h.scanDt_eq, Except.toOption, Option.map_some,
    Option.mem_some_iff] at hf ⊢
  cases s with
  | unflushed =>
    obtain ⟨g, hg⟩ := Option.isSome_iff_exists.mp hs
    simp only [Stop.leave, hg] at hf
    subst hf
    exact ⟨(h g hg).1, (h g hg).2.mono (api.completeUntil_mono hclock)⟩
  | newer n =>
    rw [Stop.leave, h.append_eq] at hf
    subst hf
    refine ⟨rfl, Run.newer_solid hsolid hnewer (hs _ ?_)⟩
    rw [h.scanDt_eq]
    rfl
  | older n =>
    rw [Stop.leave, h.append_eq] at hf
    subst hf
    exact ⟨rfl, Run.older_solid hsolid hnewer holder n⟩

theorem Inv.next {e : Event} (h : Inv api w) (he : e.Enabled api w) (hs : e.Spares api w) :
    Inv api (e.next api w) := by
  cases e with
  | complete r =>
    obtain ⟨hclock, hnewer, holder, -⟩ := he
    dsimp only [Event.run] at hclock hnewer holder
    obtain ⟨g, hg, hheader, -, hsolid, -⟩ := h.complete hclock hnewer holder
    intro f hf
    simp only [Event.next, hg, Except.toOption, Option.mem_some_iff] at hf
    subst hf
    exact ⟨hheader, hsolid⟩
  | stop r s => exact h.stop he hs
  | fail r =>
    obtain ⟨-, -, -, hok⟩ := he
    rw [h.scanDt_eq] at hok
    cases hok

end Step

/-- After interruptions that close what they opened, a run that goes through leaves each complete
candle from its cutoff on, once and in ascending order. -/
theorem gap_free {clock : ℤ} {w : World} {r : Run}
    (h : ((system api).restrict (Event.Spares api)).Reaches (World.init clock) w)
    (he : (system api).Enabled w (.complete r)) :
    ∃ f, ((system api).next w (.complete r)).file = some f ∧ Ascending f.rows ∧
      (∀ c ∈ f.rows, c ∈ api.candles ∧ c.ts < api.completeUntil r.now) ∧
      ∀ c ∈ api.candles, r.cutoff ≤ c.ts → c.ts < api.completeUntil r.now → c ∈ f.rows := by
  have hinv : Inv api w := by
    apply h.invariant
    · rintro f ⟨⟩
    · intro w e hi hstep
      exact hi.next hstep.1 hstep.2
  obtain ⟨hclock, hnewer, holder, -⟩ := he
  dsimp only [Event.run] at hclock hnewer holder
  obtain ⟨f, hf, -, hasc, hsolid, hmem⟩ := hinv.complete hclock hnewer holder
  refine ⟨f, ?_, hasc, hsolid.sub, hmem⟩
  show (r.complete api w.file).toOption = some f
  rw [hf]
  rfl

section Demo

def demoCandle (minute : ℕ) : Candle := ⟨minute * 60000, 1, 1, 1, 1, 1⟩

theorem demoCandles_descending (minutes : ℕ) :
    Descending ((List.range minutes).reverse.map demoCandle) := by
  unfold Descending
  rw [List.pairwise_map, List.pairwise_reverse]
  apply List.pairwise_lt_range.imp
  intro a b hab
  simp only [demoCandle]
  omega

def demoApi (minutes : ℕ) : Api where
  unit := 1
  unit_pos := Nat.one_pos
  candles := (List.range minutes).reverse.map demoCandle
  sorted := demoCandles_descending minutes

/-- A run after `minutes` minutes, back to minute 0. -/
def demoRun (minutes : ℤ) : Run := ⟨minutes * 60, 0, minutes * 60000, minutes * 60000⟩

/-- Minute 0 is cached; a later run ends after some rows of its newer direction. -/
def demoEvents (rows : ℕ) : List Event :=
  [.complete (demoRun 1), .stop (demoRun 202) (.newer rows)]

def demoFile (rows : ℕ) : Option File :=
  ((system (demoApi 202)).run (World.init 0) (demoEvents rows)).file

theorem gap_free_demo : ∃ f, ((system (demoApi 202)).next
    ((system (demoApi 202)).run (World.init 0) (demoEvents 201)) (.complete (demoRun 202))).file =
      some f ∧ demoCandle 1 ∈ f.rows := by
  have hr : ((system (demoApi 202)).restrict (Event.Spares (demoApi 202))).Reaches (World.init 0)
      ((system (demoApi 202)).run (World.init 0) (demoEvents 201)) :=
    System.Reaches.start.run (by decide +kernel)
  obtain ⟨f, hf, -, -, hmem⟩ := gap_free (r := demoRun 202) hr (by decide +kernel)
  exact ⟨f, hf, hmem _ (by decide +kernel) (by decide +kernel) (by decide +kernel)⟩

/-- The interruption comes after the first of two pages: minute 1 is never fetched again. -/
theorem interruption_leaves_gap :
    (system (demoApi 202)).Allowed (World.init 0)
      (demoEvents 200 ++ [.complete (demoRun 202)]) ∧
    demoCandle 1 ∈ (demoApi 202).candles ∧
    (∀ f ∈ ((system (demoApi 202)).run (World.init 0)
      (demoEvents 200 ++ [.complete (demoRun 202)])).file, demoCandle 1 ∉ f.rows) ∧
    ¬ ∀ (api : Api) (clock : ℤ) (w : World) (r : Run),
      (system api).Reaches (World.init clock) w → (system api).Enabled w (.complete r) →
        ∃ f, ((system api).next w (.complete r)).file = some f ∧ Ascending f.rows ∧
          (∀ c ∈ f.rows, c ∈ api.candles ∧ c.ts < api.completeUntil r.now) ∧
          ∀ c ∈ api.candles, r.cutoff ≤ c.ts → c.ts < api.completeUntil r.now → c ∈ f.rows := by
  have ha : (system (demoApi 202)).Allowed (World.init 0)
      (demoEvents 200 ++ [.complete (demoRun 202)]) := by
    decide +kernel
  have hc : demoCandle 1 ∈ (demoApi 202).candles := by decide +kernel
  have hgap : ∀ f ∈ ((system (demoApi 202)).run (World.init 0)
      (demoEvents 200 ++ [.complete (demoRun 202)])).file, demoCandle 1 ∉ f.rows := by
    -- the last run sorts what its two directions append, and neither fetches minute 1
    have hrows : ((scanDt (demoFile 200)).toOption.all fun scanned =>
        (append (demoFile 200) ((demoRun 202).newer (demoApi 202) scanned ++
          (demoRun 202).older (demoApi 202) scanned)).rows.all (·.ts != 60000)) = true := by
      decide +kernel
    intro f hf hmem
    have hcomplete : (demoRun 202).complete (demoApi 202) (demoFile 200) = .ok f :=
      toOption_eq_some_iff.mp hf
    obtain ⟨scanned, hscan, hfin⟩ := bind_ok_iff.mp hcomplete
    simp only [hscan, Except.toOption, Option.all_some] at hrows
    have hne := List.all_eq_true.mp hrows _ (mem_of_finalize hfin hmem)
    exact absurd hne (by decide)
  refine ⟨ha, hc, hgap, ?_⟩
  intro h
  obtain ⟨hprev, hlast, -⟩ := System.allowed_append.mp ha
  obtain ⟨f, hf, -, -, hmem⟩ := h _ 0 _ (demoRun 202) (System.Reaches.start.run hprev) hlast
  exact hgap f hf (hmem _ hc (by decide +kernel) (by decide +kernel))

end Demo

end QuantTrader.Backfill
