import QuantTrader.Relay.Outbox

/-! # At-least-once publication

A row that a relay holds is held by no other and stays unpublished until its
commit. After a flush every message of the batch is in the topic or was reported
as failed; the commit marks both kinds.
-/

namespace QuantTrader.Relay

open Engine Transition

variable {w : World} {i j : ℕ} {row row' : Row} {rows : List Row} {e : Event} {m : Message}
  {outbox : List Row} {topic : List Message}

/-- A marked row has its message in the topic, and every order written has a row that is still to
be relayed, a message, or was withdrawn by a reset. -/
structure AtLeastOnce (w : World) : Prop where
  marked : ∀ row ∈ w.outbox, row.published = true → row.message ∈ w.topic
  kept : ∀ o ∈ w.written, o ∈ w.withdrawn ∨
    (∃ row ∈ w.outbox, row.payload = o ∧ row.published = false) ∨ ∃ m ∈ w.topic, m.value = o

/-- A commit finds every failed message of its batch in the topic, from another attempt. -/
def Delivered (w : World) : Event → Prop
  | .commit i => ∀ row ∈ (w.relays i).phase.rows, row ∈ (w.relays i).failed → row.message ∈ w.topic
  | _ => True

instance (w : World) : ∀ e, Decidable (Delivered w e)
  | .commit i => inferInstanceAs (Decidable (∀ row ∈ (w.relays i).phase.rows,
      row ∈ (w.relays i).failed → row.message ∈ w.topic))
  | .place _ _ | .reset _ | .select _ _ | .produce _ | .flush _ | .update _ | .fail _ | .crash _
  | .append _ _ | .accept _ _ | .reject _ _ => isTrue trivial

/-! ## The invariant -/

/-- The rows of the batch that may still reach the topic. -/
def Process.open (p : Process) : List Row :=
  match p.phase with
  | .producing _ todo => todo ++ p.queue
  | _ => []

def Process.Accounted (p : Process) (topic : List Message) : Prop :=
  ∀ row ∈ p.phase.rows, row ∈ p.open ∨ row ∈ p.failed ∨ row.message ∈ topic

theorem Phase.exists_of_todo {phase : Phase} (h : phase.todo ≠ []) :
    ∃ rows row todo, phase = .producing rows (row :: todo) := by
  cases phase with
  | producing rows todo =>
    obtain ⟨row, todo, rfl⟩ := List.exists_cons_of_ne_nil h
    exact ⟨rows, row, todo, rfl⟩
  | _ => exact absurd rfl h

structure Inv (w : World) : Prop extends AtLeastOnce w where
  ids : (w.outbox.map Row.id).Nodup
  held : ∀ i, ∀ row ∈ (w.relays i).phase.rows,
    row ∈ w.outbox ∧ row.published = false ∧ w.locks row.id = some i
  accounted : ∀ i, (w.relays i).Accounted w.topic

namespace Inv

/-- Two relays never hold the same row. -/
theorem held_once (h : Inv w) (hi : row ∈ (w.relays i).phase.rows)
    (hj : row' ∈ (w.relays j).phase.rows) (hid : row.id = row'.id) : i = j := by
  have hlock := (h.held i row hi).2.2
  rw [hid, (h.held j row' hj).2.2] at hlock
  exact (Option.some.inj hlock).symm

theorem eq_of_id (h : Inv w) (hrow : row ∈ w.outbox) (hrow' : row' ∈ w.outbox)
    (hid : row.id = row'.id) : row = row' :=
  List.inj_on_of_nodup_map h.ids hrow hrow' hid

/-! ### Steps of a relay -/

theorem setRelay {p : Process} (h : Inv w) (hrows : p.phase.rows = (w.relays i).phase.rows)
    (hp : p.Accounted w.topic) : Inv (w.setRelay i p) where
  marked := h.marked
  kept := h.kept
  ids := h.ids
  held j row hrow := by
    rcases eq_or_ne j i with rfl | hne
    · simp only [World.setRelay, Function.update_self, hrows] at hrow
      exact h.held j row hrow
    · simp only [World.setRelay, Function.update_of_ne hne] at hrow
      exact h.held j row hrow
  accounted j := by
    rcases eq_or_ne j i with rfl | hne
    · simpa only [World.setRelay, Function.update_self] using hp
    · simpa only [World.setRelay, Function.update_of_ne hne] using h.accounted j

theorem append (h : Inv w) (m : Message) : Inv { w with topic := w.topic ++ [m] } where
  marked row hrow hpub := List.mem_append_left _ (h.marked row hrow hpub)
  kept o ho := by
    rcases h.kept o ho with hw | hrow | ⟨m', hm', hv⟩
    · exact Or.inl hw
    · exact Or.inr (Or.inl hrow)
    · exact Or.inr (Or.inr ⟨m', List.mem_append_left _ hm', hv⟩)
  ids := h.ids
  held := h.held
  accounted j row hrow := by
    rcases h.accounted j row hrow with ho | hf | ht
    · exact Or.inl ho
    · exact Or.inr (Or.inl hf)
    · exact Or.inr (Or.inr (List.mem_append_left _ ht))

theorem release {p : Process} (h : Inv w) (hp : p.phase.rows = []) :
    Inv ((w.unlock i).setRelay i p) where
  marked := h.marked
  kept := h.kept
  ids := h.ids
  held j row hrow := by
    rcases eq_or_ne j i with rfl | hne
    · simp [World.setRelay, hp] at hrow
    · simp only [World.setRelay, Function.update_of_ne hne] at hrow
      obtain ⟨hin, hpub, hlock⟩ := h.held j row hrow
      exact ⟨hin, hpub, by simp [World.setRelay, World.unlock, hlock, hne]⟩
  accounted j := by
    rcases eq_or_ne j i with rfl | hne
    · intro row hrow
      simp [World.setRelay, hp] at hrow
    · simp only [World.setRelay, Function.update_of_ne hne]
      exact h.accounted j

theorem take (h : Inv w) (hrows : ∀ row ∈ rows,
    row ∈ w.outbox ∧ row.published = false ∧ w.locks row.id = none) : Inv (w.take i rows) := by
  unfold World.take
  split_ifs
  · exact h
  constructor
  · exact ⟨h.marked, h.kept⟩
  · exact h.ids
  · intro j row hrow
    rcases eq_or_ne j i with rfl | hne
    · simp only [World.setRelay, Function.update_self, Phase.rows] at hrow
      obtain ⟨hin, hpub, -⟩ := hrows row hrow
      exact ⟨hin, hpub, if_pos (List.mem_map_of_mem hrow)⟩
    · simp only [World.setRelay, Function.update_of_ne hne] at hrow
      obtain ⟨hin, hpub, hlock⟩ := h.held j row hrow
      refine ⟨hin, hpub, ?_⟩
      have hfree : row.id ∉ rows.map Row.id := by
        intro hmem
        obtain ⟨row', hrow', hid⟩ := List.mem_map.mp hmem
        have hnone := (hrows row' hrow').2.2
        rw [hid, hlock] at hnone
        cases hnone
      exact (if_neg hfree).trans hlock
  · intro j
    rcases eq_or_ne j i with rfl | hne
    · intro row hrow
      simp only [World.setRelay, Function.update_self, Phase.rows] at hrow
      left
      simp [World.setRelay, Process.open, hrow]
    · simpa only [World.setRelay, Function.update_of_ne hne] using h.accounted j

theorem mem_selection {skipped : List ℕ} (h : row ∈ w.selection skipped) :
    row ∈ w.outbox ∧ row.published = false ∧ w.locks row.id = none := by
  have hmem := (List.mem_insertionSort _).mp (List.mem_of_mem_take h)
  simp only [List.mem_filter, Bool.and_eq_true, Bool.not_eq_eq_eq_not, Bool.not_true,
    Option.isNone_iff_eq_none] at hmem
  exact ⟨hmem.1, hmem.2.1.1, hmem.2.1.2⟩

theorem settle {queue failed : List Row} (h : Inv w)
    (hqueue : ∀ row ∈ (w.relays i).queue,
      row ∈ queue ∨ row ∈ failed ∨ row.message ∈ w.topic)
    (hfailed : ∀ row ∈ (w.relays i).failed, row ∈ failed) :
    Inv (w.setRelay i { w.relays i with queue, failed }) := by
  refine h.setRelay (p := ⟨_, queue, failed⟩) rfl ?_
  intro row hrow
  rcases h.accounted i row hrow with ho | hf | ht
  · unfold Process.open at ho ⊢
    dsimp only
    cases hphase : (w.relays i).phase with
    | producing rows todo =>
      simp only [hphase, List.mem_append] at ho ⊢
      rcases ho with htodo | hq
      · exact Or.inl (Or.inl htodo)
      · rcases hqueue row hq with hq | hrest
        · exact Or.inl (Or.inr hq)
        · exact Or.inr hrest
    | _ => simp [hphase] at ho
  · exact Or.inr (Or.inl (hfailed row hf))
  · exact Or.inr (Or.inr ht)

/-! ### Steps of the database -/

theorem place {id : ℕ} {o : Order} (h : Inv w) (hid : ∀ row ∈ w.outbox, row.id ≠ id) :
    Inv (next w (.place id o)) where
  marked row hrow hpub := by
    rcases List.mem_append.mp hrow with hrow | hrow
    · exact h.marked row hrow hpub
    · obtain rfl := List.mem_singleton.mp hrow
      cases hpub
  kept o' ho' := by
    rcases List.mem_append.mp ho' with ho' | ho'
    · rcases h.kept o' ho' with hw | ⟨row, hrow, hv⟩ | hm
      · exact Or.inl hw
      · exact Or.inr (Or.inl ⟨row, List.mem_append_left _ hrow, hv⟩)
      · exact Or.inr (Or.inr hm)
    · obtain rfl := List.mem_singleton.mp ho'
      exact Or.inr (Or.inl ⟨_, List.mem_append_right _ (List.mem_singleton_self _), rfl, rfl⟩)
  ids := by
    simp only [next, List.map_append, List.map_cons, List.map_nil]
    rw [List.nodup_append]
    refine ⟨h.ids, List.nodup_singleton _, ?_⟩
    intro a ha b hb
    obtain ⟨row, hrow, rfl⟩ := List.mem_map.mp ha
    obtain rfl := List.mem_singleton.mp hb
    exact hid row hrow
  held j row hrow := by
    obtain ⟨hin, hrest⟩ := h.held j row hrow
    exact ⟨List.mem_append_left _ hin, hrest⟩
  accounted := h.accounted

theorem reset {ids : List ℕ} (h : Inv w) (hfree : ∀ id ∈ ids, w.locks id = none) :
    Inv (next w (.reset ids)) where
  marked row hrow hpub := h.marked row (List.mem_of_mem_filter hrow) hpub
  kept o ho := by
    rcases h.kept o ho with hw | ⟨row, hrow, rfl, hpub⟩ | hm
    · exact Or.inl (List.mem_append_left _ hw)
    · by_cases hid : row.id ∈ ids
      · left
        apply List.mem_append_right
        exact List.mem_map_of_mem (List.mem_filter.mpr ⟨hrow, by simpa using hid⟩)
      · exact Or.inr (Or.inl ⟨row, List.mem_filter.mpr ⟨hrow, by simpa using hid⟩, rfl, hpub⟩)
    · exact Or.inr (Or.inr hm)
  ids := h.ids.sublist (List.filter_sublist.map _)
  held j row hrow := by
    obtain ⟨hin, hpub, hlock⟩ := h.held j row hrow
    refine ⟨List.mem_filter.mpr ⟨hin, ?_⟩, hpub, hlock⟩
    simp only [decide_eq_true_eq]
    intro hid
    have hnone := hfree row.id hid
    rw [hlock] at hnone
    cases hnone
  accounted := h.accounted

theorem sent_of_id (h : Inv w) (hsent : ∀ row ∈ (w.relays i).phase.rows, row.message ∈ w.topic) :
    ∀ row ∈ w.outbox, row.id ∈ (w.relays i).phase.rows.map Row.id → row.message ∈ w.topic := by
  intro row hrow hid
  obtain ⟨row', hrow', hid'⟩ := List.mem_map.mp hid
  obtain rfl := h.eq_of_id (h.held i row' hrow').1 hrow hid'
  exact hsent row' hrow'

/-- The marks of a batch leave the rows of the other relays alone. -/
theorem mem_mark (h : Inv w) {j : ℕ} (hne : j ≠ i) (hrow : row ∈ (w.relays j).phase.rows) :
    row ∈ (w.mark (w.relays i).phase.rows).outbox := by
  apply List.mem_map.mpr
  refine ⟨row, (h.held j row hrow).1, if_neg ?_⟩
  intro hid
  obtain ⟨row', hrow', hid'⟩ := List.mem_map.mp hid
  exact hne (h.held_once hrow hrow' hid'.symm)

theorem mark_ids (w : World) (rows : List Row) :
    (w.mark rows).outbox.map Row.id = w.outbox.map Row.id := by
  simp only [World.mark, List.map_map]
  apply List.map_congr_left
  intro row _
  simp only [Function.comp_apply]
  split_ifs <;> rfl

theorem commit_atLeastOnce (h : Inv w)
    (hsent : ∀ row ∈ (w.relays i).phase.rows, row.message ∈ w.topic) :
    AtLeastOnce (next w (.commit i)) := by
  constructor
  · intro row hrow hpub
    obtain ⟨row, hin, rfl⟩ := List.mem_map.mp hrow
    split_ifs at hpub ⊢ with hid
    · exact h.sent_of_id hsent row hin hid
    · exact h.marked row hin hpub
  · intro o ho
    rcases h.kept o ho with hw | ⟨row, hrow, rfl, hpub⟩ | hm
    · exact Or.inl hw
    · by_cases hid : row.id ∈ (w.relays i).phase.rows.map Row.id
      · exact Or.inr (Or.inr ⟨row.message, h.sent_of_id hsent row hrow hid, rfl⟩)
      · exact Or.inr (Or.inl ⟨row, List.mem_map.mpr ⟨row, hrow, if_neg hid⟩, rfl, hpub⟩)
    · exact Or.inr (Or.inr hm)

/-- The commit marks the rows of its batch, whose messages are all in the topic. -/
theorem commit (h : Inv w) (hsent : ∀ row ∈ (w.relays i).phase.rows, row.message ∈ w.topic) :
    Inv (next w (.commit i)) := by
  constructor
  · exact h.commit_atLeastOnce hsent
  · have hids := mark_ids w (w.relays i).phase.rows
    exact hids ▸ h.ids
  · intro j row hrow
    rcases eq_or_ne j i with rfl | hne
    · simp [next, World.setPhase, World.setRelay, Phase.rows] at hrow
    · simp only [next, World.setPhase, World.setRelay, Function.update_of_ne hne] at hrow
      obtain ⟨-, hpub, hlock⟩ := h.held j row hrow
      refine ⟨h.mem_mark hne hrow, hpub, ?_⟩
      have hother : w.locks row.id ≠ some i := by simp [hlock, hne]
      exact (if_neg hother).trans hlock
  · intro j
    rcases eq_or_ne j i with rfl | hne
    · intro row hrow
      simp [next, World.setPhase, World.setRelay, Phase.rows] at hrow
    · simp only [next, World.setPhase, World.setRelay, Function.update_of_ne hne]
      exact h.accounted j

/-- A relay about to commit has nothing open. -/
theorem sent_of_updated (h : Inv w) (he : Enabled w (.commit i)) (hd : Delivered w (.commit i)) :
    ∀ row ∈ (w.relays i).phase.rows, row.message ∈ w.topic := by
  intro row hrow
  have hphase : (w.relays i).phase = .updated (w.relays i).phase.rows := he
  rcases h.accounted i row hrow with ho | hf | ht
  · rw [Process.open, hphase] at ho
    cases ho
  · exact hd row hrow hf
  · exact ht

theorem next (h : Inv w) (he : Enabled w e) (hd : Delivered w e) : Inv (next w e) := by
  cases e with
  | place id o => exact h.place he
  | reset ids => exact h.reset he
  | select i skipped => exact h.take fun row hrow => mem_selection hrow
  | produce i =>
    obtain ⟨rows, row, todo, hphase⟩ := Phase.exists_of_todo he
    simp only [Relay.next, hphase]
    apply h.setRelay (by rw [hphase]; rfl)
    intro row' hrow'
    have hacc := h.accounted i row' (by rw [hphase]; exact hrow')
    simp only [Process.open, hphase, List.mem_append, List.mem_cons, List.not_mem_nil,
      or_false] at hacc ⊢
    tauto
  | flush i =>
    obtain ⟨hphase, hqueue⟩ := he
    refine h.setRelay (p := ⟨.flushed _, _, _⟩) rfl ?_
    intro row hrow
    have hacc := h.accounted i row hrow
    rwa [Process.open, hphase, hqueue] at hacc
  | update i =>
    have hphase : (w.relays i).phase = .flushed (w.relays i).phase.rows := he
    refine h.setRelay (p := ⟨.updated _, _, _⟩) rfl ?_
    intro row hrow
    have hacc := h.accounted i row hrow
    rwa [Process.open, hphase] at hacc
  | commit i => exact h.commit (h.sent_of_updated he hd)
  | fail i => exact h.release rfl
  | crash i => exact h.release rfl
  | append i row => exact h.append _
  | accept i row =>
    apply (h.append row.message).settle
    · intro row' hrow'
      rcases eq_or_ne row' row with rfl | hne
      · exact Or.inr (Or.inr (List.mem_append_right _ (List.mem_singleton_self _)))
      · exact Or.inl ((List.mem_erase_of_ne hne).mpr hrow')
    · exact fun _ hf => hf
  | reject i row =>
    apply h.settle
    · intro row' hrow'
      rcases eq_or_ne row' row with rfl | hne
      · exact Or.inr (Or.inl (List.mem_append_right _ (List.mem_singleton_self _)))
      · exact Or.inl ((List.mem_erase_of_ne hne).mpr hrow')
    · exact fun _ hf => List.mem_append_left _ hf

end Inv

/-! ## Runs -/

/-- An outbox at the start: ids are unique, and what is marked was published. -/
structure Opening (outbox : List Row) (topic : List Message) : Prop where
  ids : (outbox.map Row.id).Nodup
  marked : ∀ row ∈ outbox, row.published = true → row.message ∈ topic

theorem Opening.inv (h : Opening outbox topic) : Inv (opening outbox topic) where
  marked := h.marked
  kept o ho := by
    obtain ⟨row, hrow, rfl⟩ := List.mem_map.mp ho
    cases hpub : row.published with
    | false => exact Or.inr (Or.inl ⟨row, hrow, rfl, hpub⟩)
    | true => exact Or.inr (Or.inr ⟨row.message, h.marked row hrow hpub, rfl⟩)
  ids := h.ids
  held i row hrow := by cases hrow
  accounted i row hrow := by cases hrow

theorem Opening.reaches (h : Opening outbox topic)
    (hr : (system.restrict Delivered).Reaches (opening outbox topic) w) : Inv w := by
  apply hr.invariant h.inv
  intro w e hi he
  exact hi.next he.1 he.2

/-- A commit with a failed message that is not in the topic marks a row that was not published. -/
theorem Inv.lost (h : Inv w) (hd : ¬ Delivered w (.commit i)) :
    ¬ AtLeastOnce (Relay.next w (.commit i)) := by
  intro hal
  simp only [Delivered, not_forall] at hd
  obtain ⟨row, hrow, -, hnot⟩ := hd
  have hmem : { row with published := true } ∈ (Relay.next w (.commit i)).outbox := by
    apply List.mem_map.mpr
    exact ⟨row, (h.held i row hrow).1, if_pos (List.mem_map_of_mem hrow)⟩
  exact hnot (hal.marked { row with published := true } hmem rfl)

/-- In every run whose commits find their failed messages in the topic, publication is at least
once; a commit keeps it so exactly under that condition. -/
theorem relay_at_least_once (h : Opening outbox topic)
    (hr : (system.restrict Delivered).Reaches (opening outbox topic) w) :
    AtLeastOnce w ∧ ∀ i, Enabled w (.commit i) →
      (AtLeastOnce (next w (.commit i)) ↔ Delivered w (.commit i)) := by
  have hinv := h.reaches hr
  refine ⟨hinv.toAtLeastOnce, ?_⟩
  intro i he
  constructor
  · intro hal
    by_contra hd
    exact hinv.lost hd hal
  · intro hd
    exact (hinv.next he hd).toAtLeastOnce

section Demo

def demoOrder : Order := ⟨"o1", "demo", "KRW-BTC", .buy, .market, none, .fin 1⟩

def demoRow : Row := ⟨1, "o1", "KRW-BTC", demoOrder, false⟩

/-- The first relay dies with its message in the topic; the second one is told that its own
attempt failed. -/
def retriedEvents : List Event :=
  [.place 1 demoOrder, .select 0 [], .produce 0, .append 0 demoRow, .crash 0, .select 1 [],
    .produce 1, .reject 1 demoRow, .flush 1, .update 1, .commit 1]

theorem relay_at_least_once_retried :
    AtLeastOnce (system.run (opening [] []) retriedEvents) ∧
      (system.run (opening [] []) retriedEvents).outbox = [{ demoRow with published := true }] := by
  have ho : Opening [] [] := ⟨List.nodup_nil, nofun⟩
  have ha : (system.restrict Delivered).Allowed (opening [] []) retriedEvents := by
    decide +kernel
  exact ⟨(relay_at_least_once ho (.run .start ha)).1, by decide +kernel⟩

/-- A broker refuses the only message; the relay flushes, marks the row, and the order is in
neither. -/
def refusedEvents : List Event :=
  [.place 1 demoOrder, .select 0 [], .produce 0, .reject 0 demoRow, .flush 0, .update 0, .commit 0]

theorem refused_order_lost :
    system.Reaches (opening [] []) (system.run (opening [] []) refusedEvents) ∧
      (system.run (opening [] []) refusedEvents).outbox = [{ demoRow with published := true }] ∧
      (system.run (opening [] []) refusedEvents).topic = [] ∧
      ¬ AtLeastOnce (system.run (opening [] []) refusedEvents) := by
  have ha : system.Allowed (opening [] []) refusedEvents := by
    decide +kernel
  have hout : (system.run (opening [] []) refusedEvents).outbox =
      [{ demoRow with published := true }] := by
    decide +kernel
  have htopic : (system.run (opening [] []) refusedEvents).topic = [] := by
    decide +kernel
  refine ⟨.run .start ha, hout, htopic, ?_⟩
  intro hal
  have hmem := hal.marked { demoRow with published := true } (by simp [hout]) rfl
  rw [htopic] at hmem
  cases hmem

end Demo

end QuantTrader.Relay
