import Mathlib.Data.List.Sort

/-! # Sorting, dropping duplicates, as-of lookup

A sort by a key may put elements with the same key in any order. The part of a
sorted list below a bound is determined by the elements below it, as long as
the sort is stable or the elements below it differ in their keys. Dropping
duplicates and looking up the last element below a bound keep this.
-/

namespace QuantTrader.Frames

variable {α β κ : Type} [LinearOrder κ] {key : α → κ} {l l' : List α}

/-- A sort by a key, with no promise on the elements of one key. -/
structure Sorting where
  sort : {α κ : Type} → [LinearOrder κ] → (α → κ) → List α → List α
  perm : ∀ {α κ : Type} [LinearOrder κ] (key : α → κ) (l : List α), (sort key l).Perm l
  sorted : ∀ {α κ : Type} [LinearOrder κ] (key : α → κ) (l : List α),
    (sort key l).Pairwise fun a b => key a ≤ key b

namespace Sorting

variable {S : Sorting}

/-- The elements of one key stay in order. -/
def Stable (S : Sorting) : Prop :=
  ∀ {α κ : Type} [LinearOrder κ] (key : α → κ) (l : List α) (k : κ),
    (S.sort key l).filter (fun a => key a = k) = l.filter fun a => key a = k

theorem mem_sort {a : α} : a ∈ S.sort key l ↔ a ∈ l := (S.perm key l).mem_iff

theorem insertion_sorted (key : α → κ) (l : List α) :
    (l.insertionSort fun a b => key a ≤ key b).Pairwise fun a b => key a ≤ key b := by
  have : Std.Total fun a b : α => key a ≤ key b := ⟨fun a b => le_total (key a) (key b)⟩
  have : IsTrans α fun a b => key a ≤ key b := ⟨fun _ _ _ => le_trans⟩
  exact List.pairwise_insertionSort _ l

def insertion : Sorting where
  sort key l := l.insertionSort fun a b => key a ≤ key b
  perm _ l := List.perm_insertionSort _ l
  sorted key l := insertion_sorted key l

theorem insertion_stable : insertion.Stable := by
  intro α κ _ key l k
  have hclass : (l.filter fun a => key a = k).Pairwise fun a b => key a ≤ key b := by
    apply List.pairwise_of_forall_mem_list
    intro a ha b hb
    rw [of_decide_eq_true (List.mem_filter.mp ha).2, of_decide_eq_true (List.mem_filter.mp hb).2]
  have hsub := (List.sublist_insertionSort hclass List.filter_sublist).filter fun a => key a = k
  rw [List.filter_filter] at hsub
  simp only [Bool.and_self] at hsub
  exact (hsub.eq_of_length ((insertion.perm key l).filter _).length_eq.symm).symm

/-- Sorted lists are equal if they have the same elements of each key in the same order. -/
theorem eq_of_classes_eq (h : l.Pairwise fun a b => key a ≤ key b)
    (h' : l'.Pairwise fun a b => key a ≤ key b)
    (hclass : ∀ k, (l.filter fun a => key a = k) = l'.filter fun a => key a = k) : l = l' := by
  induction l generalizing l' with
  | nil =>
    cases l' with
    | nil => rfl
    | cons b l' => simpa using hclass (key b)
  | cons a l ih =>
    cases l' with
    | nil => simpa using hclass (key a)
    | cons b l' =>
      have hmem : ∀ x, x ∈ a :: l ↔ x ∈ b :: l' := by
        intro x
        have := congrArg (x ∈ ·) (hclass (key x))
        simpa [List.mem_filter] using this
      have hab : key a = key b := by
        apply le_antisymm
        · rcases List.mem_cons.mp ((hmem b).mpr List.mem_cons_self) with rfl | hb
          · rfl
          · exact (List.pairwise_cons.mp h).1 b hb
        · rcases List.mem_cons.mp ((hmem a).mp List.mem_cons_self) with rfl | ha
          · rfl
          · exact (List.pairwise_cons.mp h').1 a ha
      have hhead := hclass (key a)
      rw [List.filter_cons_of_pos (by simp), List.filter_cons_of_pos (by simp [hab])] at hhead
      obtain ⟨rfl, -⟩ := List.cons.inj hhead
      rw [ih (List.pairwise_cons.mp h).2 (List.pairwise_cons.mp h').2]
      intro k
      have := hclass k
      by_cases hk : key a = k
      · rw [List.filter_cons_of_pos (by simp [hk]), List.filter_cons_of_pos (by simp [hk])] at this
        exact (List.cons.inj this).2
      · rwa [List.filter_cons_of_neg (by simp [hk]), List.filter_cons_of_neg (by simp [hk])] at this

/-- The part of a sorted list whose keys meet a condition is determined by that part of the list,
in any order if no two of its elements have the same key. -/
theorem filter_sort_of_perm (key : α → κ) (p : κ → Bool)
    (h : (l.filter fun a => p (key a)).Perm (l'.filter fun a => p (key a)))
    (hties : ∀ a ∈ l, ∀ b ∈ l, p (key a) = true → key a = key b → a = b) :
    ((S.sort key l).filter fun a => p (key a)) = (S.sort key l').filter fun a => p (key a) := by
  have hsort := (S.perm key l).filter fun a => p (key a)
  have hsort' := (S.perm key l').filter fun a => p (key a)
  refine List.Perm.eq_of_pairwise ?_ ((S.sorted key l).filter _) ((S.sorted key l').filter _)
    (hsort.trans (h.trans hsort'.symm))
  intro a b ha hb hab hba
  obtain ⟨ha, hpa⟩ := List.mem_filter.mp (hsort.mem_iff.mp ha)
  have hb := (List.mem_filter.mp (h.mem_iff.mpr (hsort'.mem_iff.mp hb))).1
  exact hties a ha b hb hpa (le_antisymm hab hba)

/-- A stable sort needs that part in the same order. -/
theorem Stable.filter_sort (hstable : S.Stable) (key : α → κ) (p : κ → Bool)
    (h : (l.filter fun a => p (key a)) = l'.filter fun a => p (key a)) :
    ((S.sort key l).filter fun a => p (key a)) = (S.sort key l').filter fun a => p (key a) := by
  apply eq_of_classes_eq ((S.sorted key l).filter _) ((S.sorted key l').filter _)
  have hclass : ∀ k, ∀ l : List α, ((l.filter fun a => p (key a)).filter fun a => key a = k) =
      if p k = true then l.filter fun a => key a = k else [] := by
    intro k l
    rw [List.filter_filter]
    split_ifs with hp
    · apply List.filter_congr
      intro a _
      by_cases hk : key a = k <;> simp [hk, hp]
    · apply List.filter_eq_nil_iff.mpr
      intro a _
      by_cases hk : key a = k <;> simp [hk, hp]
  intro k
  rw [hclass, hclass]
  split_ifs with hp
  · have := congrArg (List.filter fun a => key a = k) h
    rw [hclass, hclass, if_pos hp, if_pos hp] at this
    rw [hstable key l k, hstable key l' k, this]
  · rfl

theorem filter_sort_congr (key : α → κ) (p : κ → Bool)
    (h : (l.filter fun a => p (key a)) = l'.filter fun a => p (key a))
    (hties : S.Stable ∨ ∀ a ∈ l, ∀ b ∈ l, p (key a) = true → key a = key b → a = b) :
    ((S.sort key l).filter fun a => p (key a)) = (S.sort key l').filter fun a => p (key a) := by
  rcases hties with hstable | hties
  · exact hstable.filter_sort key p h
  · exact filter_sort_of_perm key p (List.Perm.of_eq h) hties

/-! ## As-of lookup -/

variable {rows rows' : List (κ × β)}

/-- The value of the last row, in the order of the keys, whose key is not above `k`. -/
def asof (S : Sorting) (rows : List (κ × β)) (k : κ) : Option β :=
  (((S.sort Prod.fst rows).filter fun r => r.1 ≤ k).getLast?).map Prod.snd

theorem asof_nil (k : κ) : S.asof ([] : List (κ × β)) k = none := by
  rw [asof, (S.perm Prod.fst []).eq_nil]
  rfl

/-- A lookup up to a bound is determined by the rows up to the bound. -/
theorem asof_congr {bound k : κ} (hk : k ≤ bound)
    (h : (rows.filter fun r => r.1 ≤ bound) = rows'.filter fun r => r.1 ≤ bound)
    (hties : S.Stable ∨ ∀ a ∈ rows, ∀ b ∈ rows, a.1 ≤ bound → a.1 = b.1 → a = b) :
    S.asof rows k = S.asof rows' k := by
  have hsort := filter_sort_congr (S := S) Prod.fst (fun d => d ≤ bound) h
    (by simpa using hties)
  have hbelow : ∀ l : List (κ × β), (l.filter fun r => r.1 ≤ k) =
      (l.filter fun r => r.1 ≤ bound).filter fun r => r.1 ≤ k := by
    intro l
    rw [List.filter_filter]
    apply List.filter_congr
    intro r _
    by_cases hr : r.1 ≤ k
    · simp [hr, hr.trans hk]
    · simp [hr]
  unfold asof
  rw [hbelow, hsort, ← hbelow]

end Sorting

theorem filter_append_filter {q : α → Bool} (h : l.Pairwise fun a b => q b = true → q a = true) :
    l.filter q ++ (l.filter fun a => !q a) = l := by
  induction l with
  | nil => rfl
  | cons a l ih =>
    obtain ⟨ha, hl⟩ := List.pairwise_cons.mp h
    cases hq : q a with
    | true => simp [hq, ih hl]
    | false =>
      have hnone : ∀ b ∈ l, q b = false := by
        intro b hb
        by_contra hqb
        rw [ha b hb (by simpa using hqb)] at hq
        cases hq
      have hnil : l.filter q = [] := List.filter_eq_nil_iff.mpr (by simpa using hnone)
      have hall : (l.filter fun a => !q a) = l := List.filter_eq_self.mpr (by simpa using hnone)
      simp [hq, hnil, hall]

theorem eq_of_key_eq {ι : Type*} {key : α → ι} (h : l.Pairwise fun a b => key a ≠ key b) {a b : α}
    (ha : a ∈ l) (hb : b ∈ l) (hk : key a = key b) : a = b :=
  List.inj_on_of_nodup_map (List.pairwise_map.mpr h) ha hb hk

/-! ## Sorting by a relation -/

section Relation

variable {α : Type*} {r : α → α → Prop} {l l' : List α}

/-- Insertion sort needs its relation to be total and transitive on the list only. -/
theorem pairwise_insertionSort_of_mem [DecidableRel r] (htotal : ∀ a ∈ l, ∀ b ∈ l, r a b ∨ r b a)
    (htrans : ∀ a ∈ l, ∀ b ∈ l, ∀ c ∈ l, r a b → r b c → r a c) :
    (l.insertionSort r).Pairwise r := by
  let s : {a // a ∈ l} → {a // a ∈ l} → Prop := fun a b => r a b
  have : DecidableRel s := fun a b => inferInstanceAs (Decidable (r a b))
  have : Std.Total s := ⟨fun a b => htotal a a.2 b b.2⟩
  have : IsTrans _ s := ⟨fun a b c => htrans a a.2 b b.2 c c.2⟩
  have hmap := List.map_insertionSort s r Subtype.val l.attach fun _ _ _ _ => Iff.rfl
  rw [List.attach_map_subtype_val] at hmap
  rw [← hmap]
  exact List.pairwise_map.mpr (List.pairwise_insertionSort s l.attach)

/-- The beginnings of two sorted lists with the same elements are equal if nothing else fits. -/
theorem take_eq_of_perm (hp : l.Perm l') (h : l.Pairwise r) (h' : l'.Pairwise r) {n : ℕ}
    (hr : ∀ a ∈ l.take n, ∀ b ∈ l, r a b → r b a → a = b) : l.take n = l'.take n := by
  induction n generalizing l l' with
  | zero => rfl
  | succ n ih =>
    cases l with
    | nil => rw [hp.nil_eq]
    | cons a l =>
      cases l' with
      | nil => cases hp.eq_nil
      | cons b l' =>
        rw [List.take_succ_cons] at hr
        obtain rfl : a = b := by
          rcases List.mem_cons.mp (hp.mem_iff.mp List.mem_cons_self) with hab | ha
          · exact hab
          rcases List.mem_cons.mp (hp.mem_iff.mpr List.mem_cons_self) with hba | hb
          · exact hba.symm
          exact hr a List.mem_cons_self b (List.mem_cons_of_mem _ hb)
            ((List.pairwise_cons.mp h).1 b hb) ((List.pairwise_cons.mp h').1 a ha)
        rw [List.take_succ_cons, List.take_succ_cons,
          ih hp.cons_inv (List.pairwise_cons.mp h).2 (List.pairwise_cons.mp h').2]
        intro x hx y hy
        exact hr x (List.mem_cons_of_mem _ hx) y (List.mem_cons_of_mem _ hy)

end Relation

/-! ## Dropping duplicates -/

/-- The last element of every key. -/
def dropDuplicates (key : α → κ) : List α → List α
  | [] => []
  | a :: l => if ∃ b ∈ l, key b = key a then dropDuplicates key l else a :: dropDuplicates key l

theorem dropDuplicates_sublist : (dropDuplicates key l).Sublist l := by
  induction l with
  | nil => exact List.Sublist.refl _
  | cons a l ih =>
    unfold dropDuplicates
    split_ifs
    · exact ih.cons a
    · exact ih.cons_cons a

theorem dropDuplicates_pairwise : (dropDuplicates key l).Pairwise fun a b => key a ≠ key b := by
  induction l with
  | nil => exact List.Pairwise.nil
  | cons a l ih =>
    unfold dropDuplicates
    split_ifs with hdup
    · exact ih
    · refine List.pairwise_cons.mpr ⟨?_, ih⟩
      intro b hb heq
      exact hdup ⟨b, dropDuplicates_sublist.subset hb, heq.symm⟩

theorem filter_dropDuplicates (p : κ → Bool) :
    ((dropDuplicates key l).filter fun a => p (key a)) =
      dropDuplicates key (l.filter fun a => p (key a)) := by
  induction l with
  | nil => rfl
  | cons a l ih =>
    rw [dropDuplicates]
    by_cases hp : p (key a) = true
    · have hdup : (∃ b ∈ l.filter fun b => p (key b), key b = key a) ↔ ∃ b ∈ l, key b = key a := by
        constructor
        · rintro ⟨b, hb, heq⟩
          exact ⟨b, List.mem_of_mem_filter hb, heq⟩
        · rintro ⟨b, hb, heq⟩
          exact ⟨b, List.mem_filter.mpr ⟨hb, heq ▸ hp⟩, heq⟩
      rw [List.filter_cons_of_pos (p := fun a => p (key a)) hp, dropDuplicates]
      by_cases h : ∃ b ∈ l, key b = key a
      · rw [if_pos h, if_pos (hdup.mpr h), ih]
      · rw [if_neg h, if_neg (h ∘ hdup.mp),
          List.filter_cons_of_pos (p := fun a => p (key a)) hp, ih]
    · rw [List.filter_cons_of_neg (p := fun a => p (key a)) hp, ← ih]
      split_ifs
      · rfl
      · rw [List.filter_cons_of_neg (p := fun a => p (key a)) hp]

theorem exists_mem_dropDuplicates {a : α} (ha : a ∈ l) :
    ∃ b ∈ dropDuplicates key l, key b = key a := by
  induction l generalizing a with
  | nil => cases ha
  | cons x l ih =>
    rw [dropDuplicates]
    split_ifs with hdup
    · rcases List.mem_cons.mp ha with rfl | ha
      · obtain ⟨b, hb, hkey⟩ := hdup
        obtain ⟨b', hb', hkey'⟩ := ih hb
        exact ⟨b', hb', hkey'.trans hkey⟩
      · exact ih ha
    · rcases List.mem_cons.mp ha with rfl | ha
      · exact ⟨a, List.mem_cons_self, rfl⟩
      · obtain ⟨b, hb, hkey⟩ := ih ha
        exact ⟨b, List.mem_cons_of_mem _ hb, hkey⟩

theorem rel_of_mem_dropDuplicates {r : α → α → Prop} (h : l.Pairwise r) {a b : α}
    (hb : b ∈ dropDuplicates key l) (ha : a ∈ l) (hkey : key a = key b) : a = b ∨ r a b := by
  induction l with
  | nil => cases ha
  | cons x l ih =>
    obtain ⟨hx, hl⟩ := List.pairwise_cons.mp h
    rw [dropDuplicates] at hb
    split_ifs at hb with hdup
    · rcases List.mem_cons.mp ha with rfl | ha
      · exact .inr (hx b (dropDuplicates_sublist.subset hb))
      · exact ih hl hb ha
    · rcases List.mem_cons.mp hb with rfl | hbl
      · rcases List.mem_cons.mp ha with rfl | ha
        · exact .inl rfl
        · exact absurd ⟨a, ha, hkey⟩ hdup
      · rcases List.mem_cons.mp ha with rfl | ha
        · exact .inr (hx b (dropDuplicates_sublist.subset hbl))
        · exact ih hl hbl ha

theorem dropDuplicates_append (h : ∀ a ∈ l, ∀ b ∈ l', key b ≠ key a) :
    dropDuplicates key (l ++ l') = dropDuplicates key l ++ dropDuplicates key l' := by
  induction l with
  | nil => rfl
  | cons a l ih =>
    have hdup : (∃ b ∈ l ++ l', key b = key a) ↔ ∃ b ∈ l, key b = key a := by
      constructor
      · rintro ⟨b, hb, heq⟩
        rcases List.mem_append.mp hb with hb | hb
        · exact ⟨b, hb, heq⟩
        · exact absurd heq (h a List.mem_cons_self b hb)
      · rintro ⟨b, hb, heq⟩
        exact ⟨b, List.mem_append_left _ hb, heq⟩
    have ih := ih fun a' ha' => h a' (List.mem_cons_of_mem _ ha')
    rw [List.cons_append, dropDuplicates, dropDuplicates, ih]
    by_cases hl : ∃ b ∈ l, key b = key a
    · rw [if_pos hl, if_pos (hdup.mpr hl)]
    · rw [if_neg hl, if_neg (hl ∘ hdup.mp), List.cons_append]

end QuantTrader.Frames
