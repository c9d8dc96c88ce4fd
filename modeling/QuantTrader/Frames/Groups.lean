import Mathlib.Data.List.Dedup
import QuantTrader.Frames.Sorting
import QuantTrader.Series.Causal

/-! # Groups and joins of a table

`groupby.apply` gives the rows of each key to a function, `merge_asof` puts the last
earlier row of another table beside each row. Cutting tables off at a time commutes
with both, as long as the function is causal and the times of a group are distinct.
-/

namespace QuantTrader.Frames

open Series

section Keys

variable {α γ κ : Type} {key : α → γ} {time : α → κ} {rows rows' : List α}

/-- Rows of one key have different times. -/
def Keyed (key : α → γ) (time : α → κ) (rows : List α) : Prop :=
  (rows.map fun r => (key r, time r)).Nodup

theorem Keyed.eq {a b : α} (h : Keyed key time rows) (ha : a ∈ rows) (hb : b ∈ rows)
    (hk : key a = key b) (ht : time a = time b) : a = b :=
  List.inj_on_of_nodup_map h ha hb (Prod.ext hk ht)

theorem Keyed.perm (h : Keyed key time rows) (hp : rows.Perm rows') : Keyed key time rows' :=
  (hp.map _).nodup_iff.mp h

theorem Keyed.filter (h : Keyed key time rows) (p : α → Bool) :
    Keyed key time (rows.filter p) :=
  h.sublist (List.filter_sublist.map _)

end Keys

section Groups

variable {α β γ κ : Type} [LinearOrder γ] [LinearOrder κ]

def groupKeys (key : α → γ) (rows : List α) : List γ :=
  (rows.map key).dedup.insertionSort (· ≤ ·)

/-- The rows of one group, in the order of their times. -/
def group (S : Sorting) (key : α → γ) (time : α → κ) (rows : List α) (g : γ) : List α :=
  S.sort time (rows.filter fun r => key r = g)

/-- `groupby(key).apply` of a function of the rows in the order of their times. -/
def applyGroups (S : Sorting) (key : α → γ) (time : α → κ) (rows : List α)
    (f : List α → List β) : List β :=
  (groupKeys key rows).flatMap fun g => f (group S key time rows g)

variable {S : Sorting} {key : α → γ} {time : α → κ} {rows rows' : List α} {g : γ} {d : κ}

theorem mem_groupKeys : g ∈ groupKeys key rows ↔ ∃ r ∈ rows, key r = g := by simp [groupKeys]

theorem groupKeys_pairwise : (groupKeys key rows).Pairwise (· < ·) := by
  have hle := List.pairwise_insertionSort (· ≤ ·) (rows.map key).dedup
  have hne : (groupKeys key rows).Nodup :=
    (List.perm_insertionSort (· ≤ ·) _).nodup_iff.mpr (List.nodup_dedup _)
  exact (hle.and hne).imp fun h => lt_of_le_of_ne h.1 h.2

theorem mem_group {r : α} : r ∈ group S key time rows g ↔ r ∈ rows ∧ key r = g := by
  rw [group, Sorting.mem_sort, List.mem_filter, decide_eq_true_eq]

theorem group_pairwise : (group S key time rows g).Pairwise fun a b => time a ≤ time b :=
  S.sorted _ _

/-- The order of the rows does not matter within a group. -/
theorem group_perm (h : Keyed key time rows) (hp : rows.Perm rows') :
    group S key time rows g = group S key time rows' g := by
  refine List.Perm.eq_of_pairwise ?_ group_pairwise group_pairwise ?_
  · intro a b ha hb hab hba
    rw [mem_group] at ha hb
    rw [← hp.mem_iff] at hb
    exact h.eq ha.1 hb.1 (ha.2.trans hb.2.symm) (le_antisymm hab hba)
  · exact ((S.perm _ _).trans (hp.filter _)).trans (S.perm _ _).symm

theorem groupKeys_perm (hp : rows.Perm rows') : groupKeys key rows = groupKeys key rows' := by
  refine List.Perm.eq_of_pairwise (fun a b _ _ (h : a < b) h' => absurd h h'.not_gt)
    groupKeys_pairwise groupKeys_pairwise ?_
  refine (List.perm_ext_iff_of_nodup (groupKeys_pairwise.imp fun h => h.ne)
    (groupKeys_pairwise.imp fun h => h.ne)).mpr fun g => ?_
  rw [mem_groupKeys, mem_groupKeys]
  exact exists_congr fun r => and_congr_left fun _ => hp.mem_iff

theorem applyGroups_perm (h : Keyed key time rows) (hp : rows.Perm rows')
    (f : List α → List β) :
    applyGroups S key time rows f = applyGroups S key time rows' f := by
  rw [applyGroups, applyGroups, groupKeys_perm hp]
  exact List.flatMap_congr fun g _ => by rw [group_perm h hp]

theorem flatMap_group_perm (h : Keyed key time rows) :
    ((groupKeys key rows).flatMap (group S key time rows)).Perm rows := by
  have hrows : rows.Nodup := h.of_map
  have hsort : ∀ g, (group S key time rows g).Nodup := fun g =>
    (S.perm _ _).nodup_iff.mpr (hrows.filter _)
  refine (List.perm_ext_iff_of_nodup (List.nodup_flatMap.mpr ⟨fun g _ => hsort g, ?_⟩) hrows).mpr ?_
  · refine groupKeys_pairwise.imp fun {g g'} hg => ?_
    intro r hr hr'
    exact hg.ne ((mem_group.mp hr).2.symm.trans (mem_group.mp hr').2)
  · intro r
    rw [List.mem_flatMap]
    constructor
    · rintro ⟨g, -, hr⟩
      exact (mem_group.mp hr).1
    · intro hr
      exact ⟨key r, mem_groupKeys.mpr ⟨r, hr, rfl⟩, mem_group.mpr ⟨hr, rfl⟩⟩

theorem map_applyGroups_perm {δ : Type} {f : List α → List β} {k : β → δ} {k' : α → δ}
    (h : Keyed key time rows) (hf : ∀ l, (f l).map k = l.map k') :
    ((applyGroups S key time rows f).map k).Perm (rows.map k') := by
  have heq : (applyGroups S key time rows f).map k =
      ((groupKeys key rows).flatMap (group S key time rows)).map k' := by
    rw [applyGroups, List.map_flatMap, List.map_flatMap]
    exact List.flatMap_congr fun g _ => hf _
  rw [heq]
  exact (flatMap_group_perm h).map k'

theorem group_upTo (h : Keyed key time rows) :
    group S key time (rows.filter fun r => time r ≤ d) g =
      (group S key time rows g).filter fun r => time r ≤ d := by
  refine List.Perm.eq_of_pairwise ?_ group_pairwise (group_pairwise.filter _) ?_
  · intro a b ha hb hab hba
    rw [mem_group, List.mem_filter] at ha
    rw [List.mem_filter, mem_group] at hb
    exact h.eq ha.1.1 hb.1.1 (ha.2.trans hb.1.2.symm) (le_antisymm hab hba)
  · refine (S.perm _ _).trans ?_
    rw [List.filter_comm]
    exact (S.perm _ _).symm.filter _

theorem groupKeys_upTo : groupKeys key (rows.filter fun r => time r ≤ d) =
    (groupKeys key rows).filter fun g => rows.any fun r => key r = g ∧ time r ≤ d := by
  refine List.Perm.eq_of_pairwise (fun a b _ _ (h : a < b) h' => absurd h h'.not_gt)
    groupKeys_pairwise (groupKeys_pairwise.filter _) ?_
  refine (List.perm_ext_iff_of_nodup (groupKeys_pairwise.imp fun h => h.ne)
    ((groupKeys_pairwise.filter _).imp fun h => h.ne)).mpr fun g => ?_
  simp only [List.mem_filter, mem_groupKeys, List.any_eq_true, decide_eq_true_eq]
  constructor
  · rintro ⟨r, ⟨hr, ht⟩, hk⟩
    exact ⟨⟨r, hr, hk⟩, r, hr, hk, ht⟩
  · rintro ⟨-, r, hr, hk, ht⟩
    exact ⟨r, ⟨hr, ht⟩, hk⟩

theorem times_upTo : groupKeys time (rows.filter fun r => time r ≤ d) =
    (groupKeys time rows).filter fun t => t ≤ d := by
  rw [groupKeys_upTo]
  refine List.filter_congr fun t ht => ?_
  obtain ⟨r, hr, rfl⟩ := mem_groupKeys.mp ht
  rw [Bool.eq_iff_iff, List.any_eq_true, decide_eq_true_eq]
  constructor
  · rintro ⟨r', -, h⟩
    rw [decide_eq_true_eq] at h
    exact h.1 ▸ h.2
  · exact fun h => ⟨r, hr, decide_eq_true ⟨rfl, h⟩⟩

omit [LinearOrder γ] in
theorem find?_upTo {q : α → Bool} (hq : ∀ r, q r = true → time r ≤ d) :
    (rows.filter fun r => time r ≤ d).find? q = rows.find? q := by
  rw [List.find?_filter]
  congr 1
  funext r
  by_cases h : q r = true
  · simp [h, hq r h]
  · simp [h]

/-- A causal operation on the groups of the rows up to a time. -/
theorem applyGroups_upTo (h : Keyed key time rows) (x : Causal α β) (time' : β → κ)
    (htime : ∀ l, (x.run l).map time' = l.map time) :
    applyGroups S key time (rows.filter fun r => time r ≤ d) x.run =
      (applyGroups S key time rows x.run).filter fun b => time' b ≤ d := by
  have hrun : ∀ g, x.run (group S key time (rows.filter fun r => time r ≤ d) g) =
      (x.run (group S key time rows g)).filter fun b => time' b ≤ d := by
    intro g
    rw [group_upTo h]
    refine x.run_filter ?_ (group_pairwise.imp fun hab hb => ?_)
    · have := congrArg (List.map fun t => decide (t ≤ d)) (htime (group S key time rows g))
      rwa [List.map_map, List.map_map] at this
    · exact decide_eq_true (hab.trans (of_decide_eq_true hb))
  have hempty : ∀ g, (rows.any fun r => key r = g ∧ time r ≤ d) = false →
      x.run (group S key time (rows.filter fun r => time r ≤ d) g) = [] := by
    intro g hno
    have hnil : group S key time (rows.filter fun r => time r ≤ d) g = [] := by
      refine List.eq_nil_iff_forall_not_mem.mpr fun r hr => ?_
      rw [mem_group, List.mem_filter] at hr
      exact List.any_eq_false.mp hno r hr.1.1 (decide_eq_true ⟨hr.2, of_decide_eq_true hr.1.2⟩)
    have hlen := x.length_run (group S key time (rows.filter fun r => time r ≤ d) g)
    rw [hnil] at hlen ⊢
    exact List.eq_nil_of_length_eq_zero hlen
  rw [applyGroups, applyGroups, List.filter_flatMap, groupKeys_upTo]
  generalize groupKeys key rows = keys
  induction keys with
  | nil => rfl
  | cons g keys ih =>
    rw [List.flatMap_cons, ← ih, ← hrun]
    cases hg : rows.any fun r => key r = g ∧ time r ≤ d with
    | true => rw [List.filter_cons_of_pos (by exact hg), List.flatMap_cons]
    | false =>
      rw [List.filter_cons_of_neg (by exact Bool.eq_false_iff.mp hg), hempty g hg, List.nil_append]

end Groups

section Joins

variable {α β κ : Type} [LinearOrder κ] {S : Sorting} {time : α → κ} {time' : β → κ}
  {left left' : List α} {right right' : List β} {d : κ}

def lastBefore (S : Sorting) (time' : β → κ) (right : List β) (t : κ) : Option β :=
  ((S.sort time' right).filter fun b => time' b < t).getLast?

/-- `merge_asof(direction="backward", allow_exact_matches=False)`. -/
def mergeAsof (S : Sorting) (time : α → κ) (time' : β → κ) (left : List α) (right : List β) :
    List (α × Option β) :=
  (S.sort time left).map fun a => (a, lastBefore S time' right (time a))

theorem mergeAsof_fst_perm : ((mergeAsof S time time' left right).map Prod.fst).Perm left := by
  rw [mergeAsof, List.map_map]
  simpa [Function.comp_def] using S.perm time left

theorem lastBefore_of_le {t : κ} (hn : (right.map time').Nodup) (ht : t ≤ d) :
    lastBefore S time' (right.filter fun b => time' b < d) t = lastBefore S time' right t := by
  unfold lastBefore
  congr 1
  refine List.Perm.eq_of_pairwise ?_ ((S.sorted time' _).filter _)
    ((S.sorted time' _).filter _) ?_
  · intro a b ha hb hab hba
    rw [List.mem_filter, Sorting.mem_sort, List.mem_filter] at ha
    rw [List.mem_filter, Sorting.mem_sort] at hb
    exact List.inj_on_of_nodup_map hn ha.1.1 hb.1 (le_antisymm hab hba)
  · refine ((S.perm _ _).filter _).trans ?_
    rw [List.filter_filter, List.filter_congr (q := fun b => decide (time' b < t))]
    · exact ((S.perm _ _).filter _).symm
    · intro b _
      by_cases hb : time' b < t
      · simp [hb, hb.trans_le ht]
      · simp [hb]

/-- The rows up to a time, joined with the rows before it. -/
theorem mergeAsof_upTo (hn : (right.map time').Nodup)
    (hp : left'.Perm (left.filter fun a => time a ≤ d)) :
    (mergeAsof S time time' left' (right.filter fun b => time' b < d)).Perm
      ((mergeAsof S time time' left right).filter fun e => time e.1 ≤ d) := by
  have hfilter : (mergeAsof S time time' left right).filter (fun e => time e.1 ≤ d) =
      ((S.sort time left).filter fun a => time a ≤ d).map fun a =>
        (a, lastBefore S time' right (time a)) := by
    rw [mergeAsof, List.filter_map]
    rfl
  have hleft : (S.sort time left').Perm ((S.sort time left).filter fun a => time a ≤ d) :=
    ((S.perm _ _).trans hp).trans ((S.perm _ _).symm.filter _)
  have hcongr : mergeAsof S time time' left' (right.filter fun b => time' b < d) =
      (S.sort time left').map fun a => (a, lastBefore S time' right (time a)) := by
    refine List.map_congr_left fun a ha => ?_
    have hle := of_decide_eq_true (List.mem_filter.mp (hleft.mem_iff.mp ha)).2
    rw [lastBefore_of_le hn hle]
  rw [hfilter, hcongr]
  exact hleft.map _

end Joins

end QuantTrader.Frames
