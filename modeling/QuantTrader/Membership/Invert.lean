import Mathlib.Data.Finset.Basic
import Mathlib.Data.Finset.Order
import QuantTrader.Membership.Kr

/-! # Inverting the difference

The intervals of `_diff` give the snapshots back, up to the far date that stands for the
open end, and so do its changes: the events up to the date of a snapshot, folded over the
first one in any order of their dates.
-/

namespace QuantTrader.Membership

/-- `_diff` before its last loop. -/
def run (snaps : List Snapshot) : Diff := snaps.foldl Diff.next .start

/-- A change, as its date, its symbol and what it does. -/
abbrev Event := ℤ × String × Action

variable {snaps : List Snapshot} {snap : Snapshot} {s : Diff} {d hi : ℤ} {x : String}

theorem run_snoc (snaps : List Snapshot) (snap : Snapshot) :
    run (snaps ++ [snap]) = (run snaps).next snap := by
  rw [run, List.foldl_append]
  rfl

/-! ## Intervals -/

/-- The closed intervals of a symbol lie one after the other, before its open one. -/
structure Apart (hi : ℤ) (s : Diff) : Prop where
  seen_le : ∀ x e, s.lastSeen x = some e → e ≤ hi
  ends_le : ∀ p ∈ s.intervals, p.2.2 ≤ hi
  intervals : s.intervals.Pairwise fun p q => p.1 = q.1 → p.2.2 < q.2.1
  openStart : ∀ p ∈ s.intervals, ∀ o ∈ s.openStart, p.1 = o.1 → p.2.2 < o.2
  keys : s.openStart.Pairwise fun o o' => o.1 ≠ o'.1

theorem Apart.start : Apart hi .start := by
  constructor <;> simp [Diff.start]

theorem Apart.mono {hi' : ℤ} (h : Apart hi s) (hle : hi ≤ hi') : Apart hi' s where
  seen_le x e he := (h.seen_le x e he).trans hle
  ends_le p hp := (h.ends_le p hp).trans hle
  intervals := h.intervals
  openStart := h.openStart
  keys := h.keys

theorem Apart.add (h : Apart hi s) (hd : hi < d) (sym : String) : Apart hi (s.add d sym) where
  seen_le := h.seen_le
  ends_le := h.ends_le
  intervals := h.intervals
  openStart p hp o ho heq := by
    rcases List.mem_append.mp ho with ho | ho
    · exact h.openStart p hp o (List.mem_of_mem_filter ho) heq
    · obtain rfl := List.mem_singleton.mp ho
      exact (h.ends_le p hp).trans_lt hd
  keys := by
    rw [Diff.add, List.pairwise_append]
    refine ⟨h.keys.filter _, List.pairwise_singleton _ _, ?_⟩
    intro o ho o' ho'
    obtain rfl := List.mem_singleton.mp ho'
    exact of_decide_eq_true (List.mem_filter.mp ho).2

theorem mem_of_lookup {items : List (String × ℤ)} (h : items.lookup x = some d) :
    (x, d) ∈ items := by
  obtain ⟨before, after, rfl, -⟩ := List.lookup_eq_some_iff.mp h
  simp

theorem Diff.intervals_drop (s : Diff) (d : ℤ) (sym : String) :
    (s.drop d sym).intervals = s.intervals ∨ ∃ opened seen, s.openStart.lookup sym = some opened ∧
      s.lastSeen sym = some seen ∧
      (s.drop d sym).intervals = s.intervals ++ [(sym, opened, seen)] := by
  unfold Diff.drop
  cases s.openStart.lookup sym with
  | none => exact Or.inl rfl
  | some opened => cases s.lastSeen sym with
    | none => exact Or.inl rfl
    | some seen => exact Or.inr ⟨opened, seen, rfl, rfl, rfl⟩

theorem Apart.drop (h : Apart hi s) (d : ℤ) (sym : String) : Apart hi (s.drop d sym) := by
  have hkeys : (s.drop d sym).openStart.Pairwise fun o o' => o.1 ≠ o'.1 := h.keys.filter _
  have hopen : ∀ o ∈ (s.drop d sym).openStart, o ∈ s.openStart ∧ o.1 ≠ sym := by
    intro o ho
    obtain ⟨hmem, hne⟩ := List.mem_filter.mp ho
    exact ⟨hmem, of_decide_eq_true hne⟩
  rcases s.intervals_drop d sym with heq | ⟨opened, seen, hopened, hseen, heq⟩
  · refine ⟨h.seen_le, ?_, ?_, ?_, hkeys⟩ <;> rw [heq]
    · exact h.ends_le
    · exact h.intervals
    · intro p hp o ho
      exact h.openStart p hp o (hopen o ho).1
  · have hlast := mem_of_lookup hopened
    refine ⟨h.seen_le, ?_, ?_, ?_, hkeys⟩ <;> rw [heq]
    · intro p hp
      rcases List.mem_append.mp hp with hp | hp
      · exact h.ends_le p hp
      · obtain rfl := List.mem_singleton.mp hp
        exact h.seen_le sym seen hseen
    · rw [List.pairwise_append]
      refine ⟨h.intervals, List.pairwise_singleton _ _, ?_⟩
      intro p hp q hq hsym
      obtain rfl := List.mem_singleton.mp hq
      exact h.openStart p hp _ hlast hsym
    · intro p hp o ho hsym
      obtain ⟨ho, hne⟩ := hopen o ho
      rcases List.mem_append.mp hp with hp | hp
      · exact h.openStart p hp o ho hsym
      · obtain rfl := List.mem_singleton.mp hp
        exact absurd hsym.symm hne

theorem Apart.see (h : Apart hi s) (hd : hi ≤ d) (sym : String) : Apart d (s.see d sym) := by
  refine ⟨?_, (h.mono hd).ends_le, h.intervals, h.openStart, h.keys⟩
  intro x e he
  simp only [Diff.see] at he
  split_ifs at he
  · exact (Option.some.inj he).ge
  · exact (h.seen_le x e he).trans hd

theorem Apart.next (h : Apart hi s) (hlt : hi < snap.1) : Apart snap.1 (s.next snap) := by
  have hjoin : Apart hi (s.joined snap) := by
    apply List.foldlRecOn _ _ h
    intro s hs sym _
    exact hs.add hlt sym
  have hpart : Apart hi (s.parted snap) := by
    apply List.foldlRecOn _ _ hjoin
    intro s hs sym _
    exact hs.drop snap.1 sym
  have hsee : Apart snap.1 (snap.2.foldl (Diff.see snap.1) (s.parted snap)) := by
    apply List.foldlRecOn _ _ (hpart.mono hlt.le)
    intro s hs sym _
    exact hs.see le_rfl sym
  exact ⟨hsee.seen_le, hsee.ends_le, hsee.intervals, hsee.openStart, hsee.keys⟩

theorem run_apart (h : snaps.Pairwise fun s t => s.1 < t.1) (hhi : ∀ snap ∈ snaps, snap.1 ≤ hi) :
    Apart hi (run snaps) := by
  induction snaps using List.reverseRecOn generalizing hi with
  | nil => exact Apart.start
  | append_singleton snaps snap ih =>
    obtain ⟨hs, -, hlt⟩ := List.pairwise_append.mp h
    have hlast := hhi snap (List.mem_append_right _ (List.mem_singleton_self _))
    have hbefore : Apart (snap.1 - 1) (run snaps) := by
      apply ih hs
      intro t ht
      have := hlt t ht snap (List.mem_singleton_self _)
      omega
    rw [run_snoc]
    exact (hbefore.next (by omega)).mono hlast

/-- The intervals of a symbol, in their order, end before the next begins. -/
theorem diff_pairwise (h : snaps.Pairwise fun s t => s.1 < t.1) :
    (diff snaps).1.Pairwise fun p q => p.1 = q.1 → p.2.2 < q.2.1 := by
  obtain ⟨hi, hhi⟩ : ∃ hi, ∀ snap ∈ snaps, snap.1 ≤ hi := by
    obtain ⟨hi, hhi⟩ := Finset.exists_le (snaps.map Prod.fst).toFinset
    refine ⟨hi, fun snap hs => hhi _ ?_⟩
    rw [List.mem_toFinset]
    exact List.mem_map_of_mem hs
  have hr := run_apart h hhi
  change ((run snaps).intervals ++ (run snaps).openStart.map fun o => (o.1, o.2, far)).Pairwise _
  rw [List.pairwise_append, List.pairwise_map]
  refine ⟨hr.intervals, ?_, ?_⟩
  · apply hr.keys.imp
    intro o o' hne heq
    exact absurd heq hne
  · intro p hp q hq heq
    obtain ⟨o, ho, rfl⟩ := List.mem_map.mp hq
    exact hr.openStart p hp o ho heq

/-! ## Changes -/

def change (members : Finset String) (e : Event) : Finset String :=
  match e.2.2 with
  | .add => insert e.2.1 members
  | .drop => members.erase e.2.1

/-- The changes of a snapshot; the first one only joins, which is no change. -/
def events (prev : List String) (snap : Snapshot) : List Event :=
  (if prev.isEmpty then [] else (snap.2.filter (· ∉ prev)).map fun sym => (snap.1, sym, .add)) ++
    (prev.filter (· ∉ snap.2)).map fun sym => (snap.1, sym, .drop)

theorem changes_foldl_add (l : List String) (s : Diff) : (l.foldl (Diff.add d) s).changes =
    s.changes ++ if s.prev.isEmpty then [] else l.map fun sym => (d, sym, .add) := by
  induction l generalizing s with
  | nil => simp
  | cons sym l ih =>
    have hprev : (s.add d sym).prev = s.prev := rfl
    rw [List.foldl_cons, ih, hprev, Diff.add]
    split_ifs with h
    · rfl
    · exact List.append_assoc _ _ _

theorem changes_foldl_drop (l : List String) (s : Diff) : (l.foldl (Diff.drop d) s).changes =
    s.changes ++ l.map fun sym => (d, sym, .drop) := by
  induction l generalizing s with
  | nil => simp
  | cons sym l ih => rw [List.foldl_cons, ih, Diff.drop, List.append_assoc]; rfl

theorem changes_foldl_see (l : List String) (s : Diff) :
    (l.foldl (Diff.see d) s).changes = s.changes := by
  induction l generalizing s with
  | nil => rfl
  | cons sym l ih => rw [List.foldl_cons, ih]; rfl

theorem changes_next (s : Diff) (snap : Snapshot) :
    (s.next snap).changes = s.changes ++ events s.prev snap := by
  change (snap.2.foldl (Diff.see snap.1) (s.parted snap)).changes = _
  rw [changes_foldl_see, Diff.parted, changes_foldl_drop, Diff.joined, changes_foldl_add,
    List.append_assoc]
  rfl

theorem date_of_mem_events {prev : List String} {e : Event} (h : e ∈ events prev snap) :
    e.1 = snap.1 ∧ (e.2.2 = .add ↔ e.2.1 ∈ snap.2) := by
  rcases List.mem_append.mp h with h | h
  · split_ifs at h with hprev
    · cases h
    · obtain ⟨sym, hsym, rfl⟩ := List.mem_map.mp h
      exact ⟨rfl, iff_of_true rfl (List.mem_of_mem_filter hsym)⟩
  · obtain ⟨sym, hsym, rfl⟩ := List.mem_map.mp h
    have hout := of_decide_eq_true (List.mem_filter.mp hsym).2
    exact ⟨rfl, iff_of_false Action.noConfusion hout⟩

theorem mem_changes {e : Event} (h : e ∈ (run snaps).changes) :
    ∃ snap ∈ snaps, e.1 = snap.1 ∧ (e.2.2 = .add ↔ e.2.1 ∈ snap.2) := by
  induction snaps using List.reverseRecOn with
  | nil => cases h
  | append_singleton snaps snap ih =>
    rw [run_snoc, changes_next] at h
    rcases List.mem_append.mp h with h | h
    · obtain ⟨t, ht, he⟩ := ih h
      exact ⟨t, List.mem_append_left _ ht, he⟩
    · exact ⟨snap, List.mem_append_right _ (List.mem_singleton_self _), date_of_mem_events h⟩

theorem changes_pairwise (h : snaps.Pairwise fun s t => s.1 < t.1) :
    (run snaps).changes.Pairwise fun e e' => e.1 ≤ e'.1 := by
  induction snaps using List.reverseRecOn with
  | nil => exact List.Pairwise.nil
  | append_singleton snaps snap ih =>
    obtain ⟨hs, -, hlt⟩ := List.pairwise_append.mp h
    rw [run_snoc, changes_next, List.pairwise_append]
    refine ⟨ih hs, ?_, ?_⟩
    · apply List.pairwise_of_forall_mem_list
      intro e he e' he'
      rw [(date_of_mem_events he).1, (date_of_mem_events he').1]
    · intro e he e' he'
      obtain ⟨t, ht, heq, -⟩ := mem_changes he
      rw [heq, (date_of_mem_events he').1]
      exact (hlt t ht snap (List.mem_singleton_self _)).le

theorem foldl_change_add (l : List String) (members : Finset String) :
    (l.map fun sym => ((d, sym, .add) : Event)).foldl change members = members ∪ l.toFinset := by
  induction l generalizing members with
  | nil => simp
  | cons sym l ih =>
    rw [List.map_cons, List.foldl_cons, ih, List.toFinset_cons, change]
    ext x
    simp only [Finset.mem_union, Finset.mem_insert]
    tauto

theorem foldl_change_drop (l : List String) (members : Finset String) :
    (l.map fun sym => ((d, sym, .drop) : Event)).foldl change members = members \ l.toFinset := by
  induction l generalizing members with
  | nil => simp
  | cons sym l ih =>
    rw [List.map_cons, List.foldl_cons, ih, List.toFinset_cons]
    ext x
    simp only [change, Finset.mem_sdiff, Finset.mem_erase, Finset.mem_insert, not_or]
    tauto

/-- The changes of a snapshot lead from the members before to its own. -/
theorem foldl_events {prev : List String} (h : prev ≠ []) :
    (events prev snap).foldl change prev.toFinset = snap.2.toFinset := by
  rw [events, if_neg (by simpa using h), List.foldl_append, foldl_change_add, foldl_change_drop]
  ext x
  simp only [Finset.mem_sdiff, Finset.mem_union, List.mem_toFinset, List.mem_filter,
    decide_eq_true_eq]
  tauto

theorem prev_run (first : Snapshot) (snaps : List Snapshot) :
    ∃ snap ∈ first :: snaps, (run (first :: snaps)).prev = snap.2 := by
  induction snaps using List.reverseRecOn with
  | nil => exact ⟨first, List.mem_cons_self, rfl⟩
  | append_singleton snaps last _ =>
    rw [← List.cons_append, run_snoc]
    exact ⟨last, List.mem_append_right _ (List.mem_singleton_self _), rfl⟩

/-- The changes lead from the first snapshot to the last. -/
theorem foldl_changes {first : Snapshot} (hne : ∀ snap ∈ first :: snaps, snap.2 ≠ []) :
    (run (first :: snaps)).changes.foldl change first.2.toFinset =
      (run (first :: snaps)).prev.toFinset := by
  induction snaps using List.reverseRecOn with
  | nil =>
    change (Diff.start.next first).changes.foldl change _ = first.2.toFinset
    rw [changes_next]
    rfl
  | append_singleton snaps last ih =>
    rw [← List.cons_append] at hne ⊢
    have hne' : ∀ snap ∈ first :: snaps, snap.2 ≠ [] :=
      fun snap hs => hne snap (List.mem_append_left _ hs)
    obtain ⟨t, ht, hprev⟩ := prev_run first snaps
    rw [run_snoc, changes_next, List.foldl_append, ih hne']
    exact foldl_events (hprev ▸ hne' t ht)

/-- The changes up to the date of a snapshot, over the first one, are that snapshot. -/
theorem replay {first : Snapshot} (h : (first :: snaps).Pairwise fun s t => s.1 < t.1)
    (hne : ∀ snap ∈ first :: snaps, snap.2 ≠ []) (hsnap : snap ∈ first :: snaps) :
    ((run (first :: snaps)).changes.filter fun e => e.1 ≤ snap.1).foldl change first.2.toFinset =
      snap.2.toFinset := by
  induction snaps using List.reverseRecOn generalizing snap with
  | nil =>
    obtain rfl := List.mem_singleton.mp hsnap
    change ((Diff.start.next snap).changes.filter _).foldl change _ = _
    rw [changes_next]
    rfl
  | append_singleton snaps last ih =>
    rw [← List.cons_append] at h hne hsnap ⊢
    obtain ⟨hs, -, hlt⟩ := List.pairwise_append.mp h
    rcases List.mem_append.mp hsnap with hsnap | hsnap
    · -- the changes of the last snapshot are later
      have hlater : (events (run (first :: snaps)).prev last).filter (fun e => e.1 ≤ snap.1) =
          [] := by
        rw [List.filter_eq_nil_iff]
        intro e he
        rw [decide_eq_true_eq, (date_of_mem_events he).1, not_le]
        exact hlt snap hsnap last (List.mem_singleton_self _)
      rw [run_snoc, changes_next, List.filter_append, hlater, List.append_nil]
      exact ih hs (fun snap hs => hne snap (List.mem_append_left _ hs)) hsnap
    · obtain rfl := List.mem_singleton.mp hsnap
      have hall : ∀ e ∈ (run (first :: snaps ++ [snap])).changes, decide (e.1 ≤ snap.1) := by
        intro e he
        obtain ⟨t, ht, hdate, -⟩ := mem_changes he
        rw [hdate, decide_eq_true_eq]
        rcases List.mem_append.mp ht with ht | ht
        · exact (hlt t ht snap (List.mem_singleton_self _)).le
        · obtain rfl := List.mem_singleton.mp ht
          exact le_rfl
      rw [List.filter_eq_self.mpr hall]
      refine (foldl_changes hne).trans ?_
      change (run (first :: snaps ++ [snap])).prev.toFinset = _
      rw [run_snoc]
      rfl

theorem mem_foldl_change (l : List Event) {F G : Finset String} (h : x ∈ F ↔ x ∈ G) :
    x ∈ l.foldl change F ↔ x ∈ (l.filter fun e => e.2.1 = x).foldl change G := by
  induction l generalizing F G with
  | nil => exact h
  | cons e l ih =>
    rw [List.foldl_cons, List.filter_cons]
    split_ifs with hx
    · apply ih
      cases he : e.2.2 <;> simp [change, he, of_decide_eq_true hx]
    · apply ih
      have hne : x ≠ e.2.1 := fun heq => hx (decide_eq_true heq.symm)
      rw [← h]
      cases he : e.2.2 <;> simp [change, he, hne]

/-- The order of the changes of one date does not matter. -/
theorem foldl_change_perm (h : snaps.Pairwise fun s t => s.1 < t.1) {l : List Event}
    (hl : l.Perm (run snaps).changes) (hs : l.Pairwise fun e e' => e.1 ≤ e'.1)
    (F : Finset String) : (l.filter fun e => e.1 ≤ d).foldl change F =
      ((run snaps).changes.filter fun e => e.1 ≤ d).foldl change F := by
  ext x
  rw [mem_foldl_change _ Iff.rfl, mem_foldl_change (List.filter _ (run snaps).changes) Iff.rfl]
  suffices heq : ((l.filter fun e => e.1 ≤ d).filter fun e => e.2.1 = x) =
      ((run snaps).changes.filter fun e => e.1 ≤ d).filter fun e => e.2.1 = x by rw [heq]
  apply List.Perm.eq_of_pairwise _ ((hs.filter _).filter _)
    (((changes_pairwise h).filter _).filter _) ((hl.filter _).filter _)
  intro e e' he he' hle hle'
  obtain ⟨hmem, hx⟩ := List.mem_filter.mp he
  obtain ⟨hmem', hx'⟩ := List.mem_filter.mp he'
  obtain ⟨t, ht, hdate, hadd⟩ := mem_changes (hl.mem_iff.mp (List.mem_of_mem_filter hmem))
  obtain ⟨t', ht', hdate', hadd'⟩ := mem_changes (List.mem_of_mem_filter hmem')
  have hdates : e.1 = e'.1 := le_antisymm hle hle'
  have hnodup : (snaps.map Prod.fst).Nodup := by
    rw [List.nodup_iff_pairwise_ne, List.pairwise_map]
    exact h.imp fun hlt => hlt.ne
  obtain rfl := List.inj_on_of_nodup_map hnodup ht ht' (hdate ▸ hdate' ▸ hdates)
  have hsym : e.2.1 = e'.2.1 := (of_decide_eq_true hx).trans (of_decide_eq_true hx').symm
  have hact : e.2.2 = .add ↔ e'.2.2 = .add := by rw [hadd, hadd', hsym]
  refine Prod.ext hdates (Prod.ext hsym ?_)
  cases h1 : e.2.2 <;> cases h2 : e'.2.2 <;> simp [h1, h2] at hact ⊢

/-- A date is in an interval. -/
def Within (d : ℤ) (p : ℤ × ℤ) : Prop := p.1 ≤ d ∧ d ≤ p.2

/-- The intervals contain the date of a snapshot for its members only. -/
def Covered (snaps : List Snapshot) (snap : Snapshot) : Prop :=
  ∀ x, x ∈ snap.2 ↔ ∃ p, (x, p) ∈ (diff snaps).1 ∧ Within snap.1 p

/-- `_diff` can be inverted up to the far date: a symbol is in a snapshot exactly when one of its
intervals contains the date, its intervals are disjoint, and the changes, folded in the order of
their dates over the first snapshot, give every snapshot. -/
theorem diff_inverts (h : snaps.Pairwise fun s t => s.1 < t.1)
    (hne : ∀ snap ∈ snaps, snap.2 ≠ []) :
    (∀ snap ∈ snaps, snap.1 ≤ far → Covered snaps snap) ∧
    (diff snaps).1.Pairwise (fun p q => p.1 = q.1 → ∀ d, ¬ (Within d p.2 ∧ Within d q.2)) ∧
    ∀ changes : List Event, changes.Perm (diff snaps).2 →
      changes.Pairwise (fun e e' => e.1 ≤ e'.1) → ∀ first, snaps.head? = some first → ∀ snap ∈ snaps,
        (changes.filter fun e => e.1 ≤ snap.1).foldl change first.2.toFinset =
          snap.2.toFinset := by
  refine ⟨?_, ?_, ?_⟩
  · intro snap hs hfar x
    have hmem : (snap.1, decide (x ∈ snap.2)) ∈ samples x snaps := List.mem_map_of_mem hs
    have hpair : (samples x snaps).Pairwise fun s t => s.1 < t.1 := List.pairwise_map.mpr h
    rw [← decide_eq_true_iff (p := x ∈ snap.2), ← mem_spans_iff hpair hmem hfar]
    simp only [Prod.exists, mem_diff_iff, Within]
  · apply (diff_pairwise h).imp
    rintro p q hlt heq d ⟨hp, hq⟩
    exact absurd (hp.2.trans_lt (hlt heq)) hq.1.not_gt
  · intro changes hperm hs first hfirst snap hsnap
    obtain ⟨rest, rfl⟩ := List.head?_eq_some_iff.mp hfirst
    rw [foldl_change_perm h hperm hs, replay h hne hsnap]

def rejoin : List Snapshot := [(1, ["A", "B"]), (2, ["B"]), (3, ["A", "B"])]

theorem diff_inverts_rejoin :
    (∀ snap ∈ rejoin, snap.1 ≤ far → Covered rejoin snap) ∧
    (diff rejoin).1.Pairwise (fun p q => p.1 = q.1 → ∀ d, ¬ (Within d p.2 ∧ Within d q.2)) ∧
    ∀ changes : List Event, changes.Perm (diff rejoin).2 →
      changes.Pairwise (fun e e' => e.1 ≤ e'.1) →
      ∀ first, rejoin.head? = some first → ∀ snap ∈ rejoin,
        (changes.filter fun e => e.1 ≤ snap.1).foldl change first.2.toFinset =
          snap.2.toFinset :=
  diff_inverts (by decide) (by decide)

/-- An open interval does not contain a date after the far one. -/
theorem not_covered_after_far : ¬ ∀ snaps : List Snapshot,
    snaps.Pairwise (fun s t => s.1 < t.1) → (∀ snap ∈ snaps, snap.2 ≠ []) →
      ∀ snap ∈ snaps, Covered snaps snap := by
  intro h
  have hc := h [(far + 1, ["A"])] (List.pairwise_singleton _ _) (by decide) _
    (List.mem_singleton_self _) "A"
  obtain ⟨p, hmem, hdate⟩ := hc.mp (List.mem_singleton_self _)
  have hd : (diff [(far + 1, ["A"])]).1 = [("A", far + 1, far)] := by decide
  rw [hd] at hmem
  obtain rfl := (Prod.mk.inj (List.mem_singleton.mp hmem)).2
  exact absurd hdate.2 (by decide)

end QuantTrader.Membership
