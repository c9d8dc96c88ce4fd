import Mathlib.Data.Finset.Basic
import Mathlib.Data.List.Perm.Basic
import Mathlib.Logic.Function.Basic
import QuantTrader.ClickHouse.Replacing
import QuantTrader.Transition.System

/-! # The cached routes

The stock account and the state of the ensemble are slow to compute. Their routes answer
from a cache, which the warmup, the requests and a background refresh fill while they
interleave. A cached answer is always the last result of its computation, and a route that
has had a result never goes out of service.
-/

namespace QuantTrader.Api

open ClickHouse Transition

variable {P : Type*}

/-! ## The cache -/

/-- `_store` and `_inflight`; times count microseconds. -/
structure Cache (P : Type*) where
  store : String → Option (ℤ × P)
  inflight : Finset String

namespace Cache

def empty : Cache P := ⟨fun _ => none, ∅⟩

variable (c : Cache P)

/-- `cache_get` -/
def get (now : ℤ) (key : String) (maxAgeSec : ℤ) : Option P :=
  match c.store key with
  | none => none
  | some (time, payload) => if maxAgeSec * 1000000 < now - time then none else some payload

/-- `cache_get_stale` -/
def getStale (key : String) : Option P := (c.store key).map Prod.snd

/-- `cache_set` -/
def set (now : ℤ) (key : String) (payload : P) : Cache P :=
  { c with store := Function.update c.store key (some (now, payload)) }

end Cache

/-! ## The routes -/

inductive Route
  | account
  | ensemble
  deriving DecidableEq

namespace Route

/-- `CACHE_KEY` -/
def key : Route → String
  | account => "stocks_account"
  | ensemble => "strategy_ensemble"

/-- `_TTL_SEC` -/
def ttl : Route → ℤ
  | account => 60
  | ensemble => 3600

end Route

/-- A request with the time it came and the number of results computed before. -/
structure Request where
  id : ℕ
  route : Route
  time : ℤ
  known : ℕ

/-- What a route answers; `unavailable` is a 503. -/
inductive Body (P : Type*)
  | fresh (payload : P)
  | stale (payload : P)
  | computed (payload : P)
  | unavailable
  deriving DecidableEq

/-- An answer with its time and the number of results computed before. -/
structure Answer (P : Type*) where
  request : Request
  time : ℤ
  seen : ℕ
  body : Body P

/-- `warm_caches`: the targets still to come and the one whose computation runs. -/
structure Warmup where
  rest : List Route
  running : Option Route

/-- The process: the requests whose computation runs, the refreshes that are created but have not
begun, and those whose computation runs. Beside them stand all results with their times, all
answers, and how many answers there were when the last refresh of the account ended. -/
structure World (P : Type*) where
  clock : ℤ
  cache : Cache P
  warmup : Warmup
  asked : ℕ
  waiting : List Request
  scheduled : List String
  refreshing : List String
  computed : List (String × ℤ × P)
  answers : List (Answer P)
  ended : ℕ

/-- The clock is set; a request comes; the computation of the `i`th waiting request returns or
raises; the `i`th scheduled refresh begins; a refresh returns or raises; the warmup begins its next
target; its computation returns or raises. -/
inductive Event (P : Type*)
  | clock (now : ℤ)
  | ask (route : Route)
  | finish (i : ℕ) (result : Option P)
  | begin (i : ℕ)
  | refreshed (key : String) (result : Option P)
  | warm
  | warmed (result : Option P)

namespace World

/-- `_TARGETS` -/
def start : World P :=
  ⟨0, .empty, ⟨[.ensemble, .account], none⟩, 0, [], [], [], [], [], 0⟩

variable (w : World P)

/-- A computation has returned, and its result is stored. -/
def save (key : String) (payload : P) : World P :=
  { w with
    cache := w.cache.set w.clock key payload
    computed := w.computed ++ [(key, w.clock, payload)] }

def answer (r : Request) (body : Body P) : World P :=
  { w with answers := w.answers ++ [⟨r, w.clock, w.computed.length, body⟩] }

def wait (r : Request) : World P := { w with waiting := w.waiting ++ [r] }

/-- `stock_account`, up to its computation. -/
def stockAccount (r : Request) : World P :=
  match w.cache.get w.clock Route.account.key Route.account.ttl with
  | some fresh => w.answer r (.fresh fresh)
  | none =>
    match w.cache.getStale Route.account.key with
    | some stale =>
      { w with scheduled := w.scheduled ++ [Route.account.key] }.answer r (.stale stale)
    | none => w.wait r

/-- `ensemble_state`, up to its computation. -/
def ensembleState (r : Request) : World P :=
  match w.cache.get w.clock Route.ensemble.key Route.ensemble.ttl with
  | some cached => w.answer r (.fresh cached)
  | none => w.wait r

def ask (route : Route) : World P :=
  let r : Request := ⟨w.asked, route, w.clock, w.computed.length⟩
  let w := { w with asked := w.asked + 1 }
  match route with
  | .account => w.stockAccount r
  | .ensemble => w.ensembleState r

/-- What a route does once its computation has ended. -/
def finish (r : Request) (result : Option P) : World P :=
  match result, r.route with
  | some out, _ => (w.save r.route.key out).answer r (.computed out)
  | none, .account => w.answer r .unavailable
  | none, .ensemble =>
    match w.cache.getStale r.route.key with
    | some stale => w.answer r (.stale stale)
    | none => w.answer r .unavailable

/-- `refresh_in_background`, up to its computation. -/
def beginRefresh (key : String) : World P :=
  if key ∈ w.cache.inflight then w
  else
    { w with
      cache := { w.cache with inflight := insert key w.cache.inflight }
      refreshing := w.refreshing ++ [key] }

/-- A result that was computed, if any, is stored. -/
def saveResult (key : String) : Option P → World P
  | some payload => w.save key payload
  | none => w

/-- The rest of `refresh_in_background`. -/
def endRefresh (key : String) (result : Option P) : World P :=
  let w := w.saveResult key result
  { w with
    cache := { w.cache with inflight := w.cache.inflight.erase key }
    refreshing := w.refreshing.erase key
    ended := if key = Route.account.key then w.answers.length else w.ended }

def next (w : World P) : Event P → World P
  | .clock now => { w with clock := now }
  | .ask route => w.ask route
  | .finish i result =>
    match w.waiting[i]? with
    | some r => { w with waiting := w.waiting.eraseIdx i }.finish r result
    | none => w
  | .begin i =>
    match w.scheduled[i]? with
    | some key => { w with scheduled := w.scheduled.eraseIdx i }.beginRefresh key
    | none => w
  | .refreshed key result => w.endRefresh key result
  | .warm => { w with warmup := ⟨w.warmup.rest.tail, w.warmup.rest.head?⟩ }
  | .warmed result =>
    match w.warmup.running with
    | some target => { w.saveResult target.key result with warmup := ⟨w.warmup.rest, none⟩ }
    | none => w

end World

/-- A computation ends only if it runs, and the warmup runs one at a time. -/
def system (P : Type*) : System (World P) (Event P) where
  Enabled w
    | .clock _ | .ask _ => True
    | .finish i _ => i < w.waiting.length
    | .begin i => i < w.scheduled.length
    | .refreshed key _ => key ∈ w.refreshing
    | .warm => w.warmup.running = none ∧ w.warmup.rest ≠ []
    | .warmed _ => w.warmup.running ≠ none
  next := World.next

/-! ## Every run -/

/-- The last of the first `n` results of a route. -/
def lastResult (computed : List (String × ℤ × P)) (n : ℕ) (route : Route) : Option (ℤ × P) :=
  latest route.key (computed.take n)

/-- No result was young enough when the request came. -/
def Request.Expired (computed : List (String × ℤ × P)) (r : Request) : Prop :=
  ∀ time payload, lastResult computed r.known r.route = some (time, payload) →
    r.route.ttl * 1000000 < r.time - time

/-- A request waits for a computation of its own only if it has to. -/
structure Request.Cold (computed : List (String × ℤ × P)) (r : Request) : Prop where
  known : r.known ≤ computed.length
  expired : r.Expired computed
  none : r.route = .account → lastResult computed r.known r.route = .none

/-- What each kind of answer means for the results. -/
def Body.Holds (computed : List (String × ℤ × P)) (a : Answer P) : Body P → Prop
  | .fresh payload => ∃ time, lastResult computed a.seen a.request.route = some (time, payload) ∧
      a.time - time ≤ a.request.route.ttl * 1000000
  | .stale payload => a.request.Expired computed ∧
      ∃ time, lastResult computed a.seen a.request.route = some (time, payload)
  | .computed payload => a.request.Expired computed ∧ a.request.known < a.seen ∧
      lastResult computed a.seen a.request.route = some (a.time, payload)
  | .unavailable => lastResult computed a.request.known a.request.route = none ∧
      (a.request.route = .ensemble → lastResult computed a.seen a.request.route = none)

/-- An answer is what its route should say of the results that there were. -/
structure Answer.Justified (computed : List (String × ℤ × P)) (a : Answer P) : Prop where
  known : a.request.known ≤ a.seen
  seen : a.seen ≤ computed.length
  body : a.body.Holds computed a

/-- An answer that the account gave from an old result. -/
def Answer.Stale (a : Answer P) : Prop :=
  a.request.route = .account ∧ ∃ payload, a.body = .stale payload

/-- What the cache, the answers and the refreshes keep. -/
structure Sound (w : World P) : Prop where
  /-- The cache holds the last result of every computation. -/
  store : ∀ key, w.cache.store key = latest key w.computed
  /-- A key is refreshed by one task at a time, and marked exactly while it is. -/
  single : w.refreshing.Nodup
  inflight : ∀ key, key ∈ w.cache.inflight ↔ key ∈ w.refreshing
  answers : ∀ a ∈ w.answers, a.Justified w.computed
  waiting : ∀ r ∈ w.waiting, r.Cold w.computed
  /-- After an old account was answered a refresh is to come, until one has ended. -/
  revalidated : ∀ a ∈ w.answers.drop w.ended, a.Stale →
    Route.account.key ∈ w.scheduled ∨ Route.account.key ∈ w.refreshing

/-- The requests that were answered, and those that wait. -/
def World.ids (w : World P) : List ℕ :=
  w.answers.map (·.request.id) ++ w.waiting.map Request.id

/-- What the cached routes guarantee. -/
structure Served (w : World P) : Prop extends Sound w where
  /-- Every request is answered once or waits for its computation. -/
  once : w.ids.Perm (List.range w.asked)

/-! ## Results -/

section Results

variable {computed more : List (String × ℤ × P)} {m n : ℕ} {route : Route} {r : Request}
  {a : Answer P}

theorem lastResult_append (h : n ≤ computed.length) :
    lastResult (computed ++ more) n route = lastResult computed n route := by
  rw [lastResult, List.take_append_of_le_length h, lastResult]

theorem lastResult_length : lastResult computed computed.length route =
    latest route.key computed := by
  rw [lastResult, List.take_length]

theorem lastResult_none (hmn : m ≤ n) (h : lastResult computed n route = none) :
    lastResult computed m route = none := by
  refine latest_eq_none fun x hx => ?_
  have hmem : (route.key, x) ∈ computed.take n :=
    (List.take_prefix_take_left hmn).subset hx
  obtain ⟨y, hy⟩ := exists_latest hmem
  exact Option.some_ne_none y (hy.symm.trans h)

variable (more) in
theorem Request.Cold.append (h : r.Cold computed) : r.Cold (computed ++ more) where
  known := h.known.trans (by simp)
  expired := by
    intro time payload hlast
    rw [lastResult_append h.known] at hlast
    exact h.expired time payload hlast
  none hroute := by
    rw [lastResult_append h.known]
    exact h.none hroute

theorem Answer.Justified.append (h : a.Justified computed) : a.Justified (computed ++ more) := by
  have hknown : a.request.known ≤ computed.length := h.known.trans h.seen
  refine ⟨h.known, h.seen.trans (by simp), ?_⟩
  have hbody := h.body
  unfold Body.Holds Request.Expired at hbody ⊢
  simpa only [lastResult_append h.seen, lastResult_append hknown] using hbody

end Results

/-! ## What each step keeps -/

variable {w : World P} {r : Request} {body : Body P} {key : String} {payload : P}
  {result : Option P}

namespace Cache

variable {c : Cache P} {now maxAge : ℤ}

theorem get_eq_some : c.get now key maxAge = some payload ↔
    ∃ time, c.store key = some (time, payload) ∧ now - time ≤ maxAge * 1000000 := by
  unfold get
  cases hstore : c.store key with
  | none => simp
  | some entry =>
    by_cases hage : maxAge * 1000000 < now - entry.1
    · simp only [hage, if_true, Option.some.injEq]
      constructor
      · nofun
      · rintro ⟨time, rfl, hle⟩
        exact absurd hage (not_lt.mpr hle)
    · simp only [hage, if_false, Option.some.injEq]
      constructor
      · rintro rfl
        exact ⟨entry.1, rfl, not_lt.mp hage⟩
      · rintro ⟨time, rfl, -⟩
        rfl

theorem get_eq_none (h : c.get now key maxAge = none) {time : ℤ}
    (hstore : c.store key = some (time, payload)) : maxAge * 1000000 < now - time := by
  by_contra hage
  have hget := get_eq_some.mpr ⟨time, hstore, not_lt.mp hage⟩
  exact Option.some_ne_none payload (hget.symm.trans h)

end Cache

namespace Sound

theorem start : Sound (World.start (P := P)) where
  store _ := rfl
  single := .nil
  inflight key := by simp [World.start, Cache.empty]
  answers _ ha := absurd ha List.not_mem_nil
  waiting _ hr := absurd hr List.not_mem_nil
  revalidated _ ha := absurd ha List.not_mem_nil

variable (h : Sound w)

include h

theorem store_eq (route : Route) :
    w.cache.store route.key = lastResult w.computed w.computed.length route := by
  rw [h.store, lastResult_length]

theorem save : Sound (w.save key payload) where
  store k := by
    change Function.update _ _ _ _ = _
    rw [World.save, latest_append, latest_cons, latest_nil]
    by_cases hk : k = key
    · subst hk
      simp
    · simp [hk, Ne.symm hk, h.store]
  single := h.single
  inflight := h.inflight
  answers a ha := (h.answers a ha).append
  waiting r hr := (h.waiting r hr).append _
  revalidated := h.revalidated

variable (key result) in
theorem saveResult : Sound (w.saveResult key result) := by
  cases result with
  | none => exact h
  | some payload => exact h.save

theorem answer (hjustified : Answer.Justified w.computed ⟨r, w.clock, w.computed.length, body⟩)
    (hstale : r.route = .account → (∃ payload, body = .stale payload) →
      Route.account.key ∈ w.scheduled ∨ Route.account.key ∈ w.refreshing) :
    Sound (w.answer r body) where
  store := h.store
  single := h.single
  inflight := h.inflight
  answers a ha := by
    rcases List.mem_append.mp ha with ha | ha
    · exact h.answers a ha
    · obtain rfl := List.mem_singleton.mp ha
      exact hjustified
  waiting := h.waiting
  revalidated a ha hold := by
    rw [World.answer, List.drop_append] at ha
    rcases List.mem_append.mp ha with ha | ha
    · exact h.revalidated a ha hold
    · obtain rfl := List.mem_singleton.mp (List.mem_of_mem_drop ha)
      exact hstale hold.1 hold.2

theorem wait (hcold : r.Cold w.computed) : Sound (w.wait r) where
  store := h.store
  single := h.single
  inflight := h.inflight
  answers := h.answers
  waiting r' hr := by
    rcases List.mem_append.mp hr with hr | hr
    · exact h.waiting r' hr
    · obtain rfl := List.mem_singleton.mp hr
      exact hcold
  revalidated := h.revalidated

theorem expired_of_get (hroute : w.cache.get w.clock r.route.key r.route.ttl = none)
    (hr : r.time = w.clock ∧ r.known = w.computed.length) : r.Expired w.computed := by
  intro time payload hlast
  rw [hr.2, ← h.store_eq] at hlast
  rw [hr.1]
  exact Cache.get_eq_none hroute hlast

theorem fresh_of_get (hget : w.cache.get w.clock r.route.key r.route.ttl = some payload)
    (hr : r.known ≤ w.computed.length) :
    Answer.Justified w.computed ⟨r, w.clock, w.computed.length, .fresh payload⟩ := by
  obtain ⟨time, hstore, hage⟩ := Cache.get_eq_some.mp hget
  exact ⟨hr, le_rfl, time, (h.store_eq r.route).symm.trans hstore, hage⟩

theorem stale_of_get (hget : w.cache.getStale r.route.key = some payload)
    (hexpired : r.Expired w.computed) (hr : r.known ≤ w.computed.length) :
    Answer.Justified w.computed ⟨r, w.clock, w.computed.length, .stale payload⟩ := by
  obtain ⟨⟨time, payload'⟩, hstore, rfl⟩ := Option.map_eq_some_iff.mp hget
  exact ⟨hr, le_rfl, hexpired, time, (h.store_eq r.route).symm.trans hstore⟩

theorem none_of_get {route : Route} (hget : w.cache.getStale route.key = none) :
    lastResult w.computed w.computed.length route = none := by
  rw [← h.store_eq]
  exact Option.map_eq_none_iff.mp hget

theorem ask (route : Route) : Sound (w.ask route) := by
  have hasked : Sound { w with asked := w.asked + 1 } :=
    ⟨h.store, h.single, h.inflight, h.answers, h.waiting, h.revalidated⟩
  cases route with
  | account =>
    simp only [World.ask, World.stockAccount]
    cases hget : w.cache.get w.clock Route.account.key Route.account.ttl with
    | some fresh => exact hasked.answer (h.fresh_of_get hget le_rfl) (by simp)
    | none =>
      have hexpired := h.expired_of_get (r := ⟨w.asked, .account, w.clock, w.computed.length⟩) hget
        ⟨rfl, rfl⟩
      cases hstale : w.cache.getStale Route.account.key with
      | some stale =>
        have hscheduled : Sound { w with
            asked := w.asked + 1
            scheduled := w.scheduled ++ [Route.account.key] } :=
          ⟨h.store, h.single, h.inflight, h.answers, h.waiting, fun a ha hold =>
            (h.revalidated a ha hold).imp_left (List.mem_append_left _)⟩
        exact hscheduled.answer (h.stale_of_get hstale hexpired le_rfl) (by simp)
      | none => exact hasked.wait ⟨le_rfl, hexpired, fun _ => h.none_of_get hstale⟩
  | ensemble =>
    simp only [World.ask, World.ensembleState]
    cases hget : w.cache.get w.clock Route.ensemble.key Route.ensemble.ttl with
    | some cached => exact hasked.answer (h.fresh_of_get hget le_rfl) (by simp)
    | none => exact hasked.wait ⟨le_rfl, h.expired_of_get hget ⟨rfl, rfl⟩, by simp⟩

theorem finish (hcold : r.Cold w.computed) : Sound (w.finish r result) := by
  unfold World.finish
  cases result with
  | some out =>
    have hcold' := hcold.append [(r.route.key, w.clock, out)]
    refine h.save.answer ⟨hcold'.known, le_rfl, hcold'.expired, ?_, ?_⟩ (by simp)
    · exact Nat.lt_of_le_of_lt hcold.known (by simp [World.save])
    · refine lastResult_length.trans ?_
      simp [World.save, latest_append, latest_cons]
  | none =>
    cases hroute : r.route with
    | account =>
      refine h.answer ⟨hcold.known, le_rfl, hcold.none hroute, ?_⟩ (by simp)
      intro hne
      simp [hroute] at hne
    | ensemble =>
      dsimp only
      rw [← hroute]
      cases hstale : w.cache.getStale r.route.key with
      | some stale =>
        exact h.answer (h.stale_of_get hstale hcold.expired hcold.known) (by simp [hroute])
      | none =>
        have hnone := h.none_of_get hstale
        exact h.answer ⟨hcold.known, le_rfl, lastResult_none hcold.known hnone, fun _ => hnone⟩
          (by simp)

theorem begin {i : ℕ} (hi : w.scheduled[i]? = some key) :
    Sound ({ w with scheduled := w.scheduled.eraseIdx i }.beginRefresh key) := by
  -- what leaves the scheduled refreshes runs now, if it did not already
  have hscheduled : ∀ k ∈ w.scheduled, k ∈ w.scheduled.eraseIdx i ∨ k = key := by
    intro k hk
    obtain ⟨j, hj⟩ := List.mem_iff_getElem?.mp hk
    by_cases hji : j = i
    · subst hji
      exact .inr (Option.some.inj (hj.symm.trans hi))
    · exact .inl (List.mem_eraseIdx_iff_getElem?.mpr ⟨j, hji, hj⟩)
  unfold World.beginRefresh
  split_ifs with hkey
  · refine ⟨h.store, h.single, h.inflight, h.answers, h.waiting, fun a ha hold => ?_⟩
    rcases h.revalidated a ha hold with hmem | hmem
    · rcases hscheduled _ hmem with hmem | heq
      · exact .inl hmem
      · rw [heq]
        exact .inr ((h.inflight key).mp hkey)
    · exact .inr hmem
  · have hnot : key ∉ w.refreshing := mt (h.inflight key).mpr hkey
    refine ⟨h.store, ?_, fun k => ?_, h.answers, h.waiting, fun a ha hold => ?_⟩
    · exact List.nodup_append.mpr ⟨h.single, List.nodup_singleton _, by
        rintro k hk _ hmem rfl
        exact hnot (List.mem_singleton.mp hmem ▸ hk)⟩
    · simp [h.inflight k, or_comm]
    · rcases h.revalidated a ha hold with hmem | hmem
      · rcases hscheduled _ hmem with hmem | heq
        · exact .inl hmem
        · exact .inr (by simp [heq])
      · exact .inr (List.mem_append_left _ hmem)

theorem endRefresh : Sound (w.endRefresh key result) := by
  have hsave := h.saveResult key result
  have hframe : (w.saveResult key result).refreshing = w.refreshing ∧
      (w.saveResult key result).answers = w.answers ∧
      (w.saveResult key result).scheduled = w.scheduled ∧
      (w.saveResult key result).ended = w.ended := by
    cases result <;> exact ⟨rfl, rfl, rfl, rfl⟩
  unfold World.endRefresh
  refine ⟨hsave.store, hsave.single.erase _, fun k => ?_, hsave.answers, hsave.waiting, ?_⟩
  · rw [hsave.single.mem_erase_iff, Finset.mem_erase, hsave.inflight]
  · intro a ha hold
    dsimp only at ha ⊢
    split_ifs at ha with hkey
    · rw [List.drop_length] at ha
      cases ha
    · refine (hsave.revalidated a ha hold).imp_right fun hmem => ?_
      exact (hsave.single.mem_erase_iff).mpr ⟨Ne.symm hkey, hmem⟩

omit h

theorem next (h : Sound w) (e : Event P) : Sound (w.next e) := by
  cases e with
  | clock now => exact ⟨h.store, h.single, h.inflight, h.answers, h.waiting, h.revalidated⟩
  | ask route => exact h.ask route
  | finish i result =>
    simp only [World.next]
    cases hi : w.waiting[i]? with
    | none => exact h
    | some r =>
      have herase : Sound { w with waiting := w.waiting.eraseIdx i } :=
        ⟨h.store, h.single, h.inflight, h.answers,
          fun r hr => h.waiting r (List.mem_of_mem_eraseIdx hr), h.revalidated⟩
      exact herase.finish (h.waiting r (List.mem_of_getElem? hi))
  | begin i =>
    simp only [World.next]
    cases hi : w.scheduled[i]? with
    | none => exact h
    | some key => exact h.begin hi
  | refreshed key result => exact h.endRefresh
  | warm => exact ⟨h.store, h.single, h.inflight, h.answers, h.waiting, h.revalidated⟩
  | warmed result =>
    simp only [World.next]
    cases w.warmup.running with
    | none => exact h
    | some target =>
      have h := h.saveResult target.key result
      exact ⟨h.store, h.single, h.inflight, h.answers, h.waiting, h.revalidated⟩

end Sound

/-! ## The requests -/

namespace World

theorem ids_answer : (w.answer r body).ids.Perm (r.id :: w.ids) := by
  simp only [ids, answer, List.map_append, List.append_assoc]
  exact List.perm_middle

theorem ids_wait : (w.wait r).ids.Perm (r.id :: w.ids) := by
  rw [ids, wait, List.map_append, ← List.append_assoc]
  exact List.perm_append_singleton _ _

theorem ids_ask (route : Route) : (w.ask route).ids.Perm (w.asked :: w.ids) := by
  cases route with
  | account =>
    simp only [ask, stockAccount]
    split
    · exact ids_answer
    · split
      · exact ids_answer
      · exact ids_wait
  | ensemble =>
    simp only [ask, ensembleState]
    split
    · exact ids_answer
    · exact ids_wait

theorem ids_finish : (w.finish r result).ids.Perm (r.id :: w.ids) := by
  unfold finish
  split
  · exact ids_answer
  · exact ids_answer
  · split
    · exact ids_answer
    · exact ids_answer

theorem ids_eraseIdx {i : ℕ} (hi : w.waiting[i]? = some r) :
    (r.id :: { w with waiting := w.waiting.eraseIdx i }.ids).Perm w.ids := by
  obtain ⟨hlt, rfl⟩ := List.getElem?_eq_some_iff.mp hi
  refine List.perm_middle.symm.trans (List.Perm.append_left _ ?_)
  exact (List.getElem_cons_eraseIdx_perm hlt).map Request.id

theorem asked_ask (route : Route) : (w.ask route).asked = w.asked + 1 := by
  cases route with
  | account =>
    simp only [ask, stockAccount]
    split
    · rfl
    · split <;> rfl
  | ensemble =>
    simp only [ask, ensembleState]
    split <;> rfl

theorem asked_finish : (w.finish r result).asked = w.asked := by
  unfold finish
  split
  · rfl
  · rfl
  · split <;> rfl

end World

namespace Served

theorem start : Served (World.start (P := P)) := { Sound.start with once := .nil }

theorem next (h : Served w) (e : Event P) : Served (w.next e) := by
  refine { h.toSound.next e with once := ?_ }
  cases e with
  | clock now => exact h.once
  | ask route =>
    rw [World.next, World.asked_ask, List.range_succ]
    refine (World.ids_ask route).trans ((h.once.cons _).trans ?_)
    exact (List.perm_append_singleton _ _).symm
  | finish i result =>
    simp only [World.next]
    cases hi : w.waiting[i]? with
    | none => exact h.once
    | some r =>
      dsimp only
      rw [World.asked_finish]
      exact (World.ids_finish.trans (World.ids_eraseIdx hi)).trans h.once
  | begin i =>
    simp only [World.next]
    cases w.scheduled[i]? with
    | none => exact h.once
    | some key =>
      dsimp only [World.beginRefresh]
      split_ifs <;> exact h.once
  | refreshed key result => cases result <;> exact h.once
  | warm => exact h.once
  | warmed result =>
    simp only [World.next]
    cases w.warmup.running with
    | none => exact h.once
    | some target => cases result <;> exact h.once

end Served

/-- However requests, computations, refreshes and the warmup interleave, with any results, failures
and clock, a cached answer is the last result of its computation, no key is refreshed twice at a
time, and only a route without a result is unavailable. -/
theorem cached_routes_served {w : World P} (h : (system P).Reaches World.start w) : Served w :=
  h.invariant .start fun _ e hi _ => hi.next e

section Demo

instance (w : World P) : ∀ e, Decidable ((system P).Enabled w e)
  | .clock _ | .ask _ => isTrue trivial
  | .finish i _ => inferInstanceAs (Decidable (i < w.waiting.length))
  | .begin i => inferInstanceAs (Decidable (i < w.scheduled.length))
  | .refreshed key _ => inferInstanceAs (Decidable (key ∈ w.refreshing))
  | .warm => inferInstanceAs (Decidable (w.warmup.running = none ∧ w.warmup.rest ≠ []))
  | .warmed _ => inferInstanceAs (Decidable (w.warmup.running ≠ none))

/-- The account fails before the warmup has a result; a minute later two requests get the old one,
and one refresh runs for both. -/
def demoEvents : List (Event ℕ) :=
  [.ask .account, .warm, .warmed (some 1), .ask .ensemble, .finish 0 none, .warm, .warmed (some 2),
    .clock 60000001, .ask .account, .ask .account, .begin 0, .begin 0,
    .refreshed "stocks_account" (some 3), .ask .account]

theorem cached_routes_served_demo : let w := (system ℕ).run World.start demoEvents
    (w.answers.map fun a => (a.request.id, a.body)) =
      [(1, .fresh 1), (0, .unavailable), (2, .stale 2), (3, .stale 2), (4, .fresh 3)] ∧ Served w :=
  ⟨by decide +kernel, cached_routes_served (System.Reaches.start.run (by decide +kernel))⟩

end Demo

end QuantTrader.Api
