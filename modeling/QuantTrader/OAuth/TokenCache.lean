import Mathlib.Algebra.Order.Ring.Int
import QuantTrader.Python.Json
import QuantTrader.Transition.Run

/-! # The cached access token

A cache reads its token and its expiry from a file, one after the other, and any
exception on the way leaves what was read so far. What is left is then compared with
the clock: an expiry without an offset cannot be compared, and the first of all times,
which stands for no expiry, has nothing before it.
-/

namespace QuantTrader.OAuth

open Python Transition

/-- The microseconds from `datetime.min` to `datetime.max`. -/
def maxMicros : ℤ := 315537897599999999

/-- `datetime`: the microseconds of the local time since `datetime.min`, and the offset of
an aware one. -/
structure Datetime where
  micros : ℤ
  utcoffset : Option ℤ
  fits : 0 ≤ micros ∧ micros ≤ maxMicros
  deriving DecidableEq

namespace Datetime

/-- `datetime.min.replace(tzinfo=timezone.utc)`. -/
def minUtc : Datetime where
  micros := 0
  utcoffset := some 0
  fits := by decide

/-- `t - d`. -/
def sub (t : Datetime) (d : ℤ) : Except Exn Datetime :=
  if h : 0 ≤ t.micros - d ∧ t.micros - d ≤ maxMicros then
    .ok { t with micros := t.micros - d, fits := h }
  else .error .arithmeticError

/-- `t >= u`: times with an offset are compared by their instants, and only with each other. -/
def ge (t u : Datetime) : Except Exn Bool :=
  match t.utcoffset, u.utcoffset with
  | none, none => .ok (u.micros ≤ t.micros)
  | some o, some p => .ok (u.micros - p ≤ t.micros - o)
  | _, _ => .error .typeError

end Datetime

/-- `datetime.fromisoformat` of a decoded value, by what it makes of a text. -/
def fromisoformat (iso : Text → Option Datetime) : Json → Except Exn Datetime
  | .str s => match iso s with
    | some t => .ok t
    | none => .error .valueError
  | _ => .error .typeError

/-- `TokenCache`; no token is `null`. -/
structure TokenCache where
  margin : ℤ
  token : Json
  expiresAt : Datetime

/-- What the file is: the value of its JSON, or the exception of opening or decoding it. -/
abbrev Content := Except Exn Json

/-- `d[key]`, when the file can be read. -/
def Content.field (file : Content) (key : String) : Except Exn Json := do
  (← file).subscript key

/-- What `get` returns, whether it asked for a new token, and the cache it leaves. -/
structure Answer where
  token : Json
  requested : Bool
  cache : TokenCache

namespace TokenCache

variable (iso : Text → Option Datetime)

/-- `_load` -/
def load (c : TokenCache) (file : Content) : TokenCache :=
  match file.field "token" with
  | .error _ => c
  | .ok token =>
    let c := { c with token := token }
    match file.field "expires_at" >>= fromisoformat iso with
    | .error _ => c
    | .ok expiresAt => { c with expiresAt := expiresAt }

/-- `__init__` -/
def init (margin : ℤ) (file : Content) : TokenCache :=
  load iso ⟨margin, .null, .minUtc⟩ file

/-- `now >= self._expires_at - self._margin`. -/
def expiring (c : TokenCache) (now : Datetime) : Except Exn Bool := do
  now.ge (← c.expiresAt.sub c.margin)

/-- `get`, when a request returns `issued` and saving succeeds. -/
def get (c : TokenCache) (force : Bool) (now : Datetime) (issued : Text × Datetime) :
    Except Exn Answer := do
  let renew ← if force || c.token.isNull then pure true else c.expiring now
  if renew then
    return ⟨.str issued.1, true, { c with token := .str issued.1, expiresAt := issued.2 }⟩
  else return ⟨c.token, false, c⟩

end TokenCache

/-! ## What the file says -/

/-- A token other than `null`. -/
def Content.token? (file : Content) : Option Json :=
  (file.field "token").toOption.filter fun t => !t.isNull

def Content.expiry? (iso : Text → Option Datetime) (file : Content) : Option Datetime :=
  (file.field "expires_at" >>= fromisoformat iso).toOption

/-- The token and its expiry, when the token is a text and the expiry has an offset. -/
def Content.pair? (iso : Text → Option Datetime) (file : Content) : Option (Text × Datetime) :=
  match file.token?, file.expiry? iso with
  | some (.str s), some e => if e.utcoffset.isSome then some (s, e) else none
  | _, _ => none

/-- The instant of a time that has an offset. -/
def Datetime.instant (t : Datetime) : ℤ := t.micros - t.utcoffset.getD 0

/-- `get` returns; it asks for a new token when the file has no pair, and otherwise returns
the one of the file only while that expires later than the margin from now. -/
def Tolerates (iso : Text → Option Datetime) (margin : ℤ) (now : Datetime)
    (issued : Text × Datetime) (file : Content) : Prop :=
  ∃ a, (TokenCache.init iso margin file).get false now issued = .ok a ∧
    (file.pair? iso = none → a.requested) ∧
    (a.requested = false → ∃ s e, file.pair? iso = some (s, e) ∧ a.token = .str s ∧
      now.instant + margin < e.instant)

/-- A token comes with an expiry that has an offset and is not within the margin of the
first or last of all times; one that is no text, or has no expiry of its own, is due. -/
def Usable (iso : Text → Option Datetime) (margin : ℤ) (now : Datetime) (file : Content) :
    Prop :=
  ∀ token ∈ file.token?,
    let e := (file.expiry? iso).getD .minUtc
    e.utcoffset.isSome ∧ (0 ≤ e.micros - margin ∧ e.micros - margin ≤ maxMicros) ∧
      (token.isStr ∧ (file.expiry? iso).isSome ∨ e.instant - margin ≤ now.instant)

variable {iso : Text → Option Datetime} {margin : ℤ} {now : Datetime}
  {issued : Text × Datetime} {file : Content} {c : TokenCache} {token : Json}

theorem Datetime.sub_ok {t u : Datetime} {d : ℤ} (h : t.sub d = .ok u) :
    (0 ≤ t.micros - d ∧ t.micros - d ≤ maxMicros) ∧ u.utcoffset = t.utcoffset ∧
      u.instant = t.instant - d := by
  unfold Datetime.sub at h
  split_ifs at h with hfits
  obtain rfl := Except.ok.inj h
  refine ⟨hfits, rfl, ?_⟩
  simp only [Datetime.instant]
  omega

theorem Datetime.exists_sub {t : Datetime} {d : ℤ}
    (h : 0 ≤ t.micros - d ∧ t.micros - d ≤ maxMicros) : ∃ u, t.sub d = .ok u :=
  ⟨_, dif_pos h⟩

/-- The time now can be compared with the times that have an offset. -/
theorem Datetime.ge_ok_iff {u : Datetime} {b : Bool} (hnow : now.utcoffset = some 0) :
    now.ge u = .ok b ↔ u.utcoffset.isSome ∧ b = decide (u.instant ≤ now.instant) := by
  unfold Datetime.ge Datetime.instant
  cases u.utcoffset with
  | none => simp [hnow]
  | some p => simp [hnow, eq_comm]

namespace TokenCache

theorem isNull_init (iso : Text → Option Datetime) (margin : ℤ) (h : file.token? = none) :
    (init iso margin file).token.isNull := by
  unfold init load
  cases ht : file.field "token" with
  | error e => rfl
  | ok token =>
    have hnull : token.isNull := by
      simpa [Content.token?, ht, Except.toOption, Option.filter] using h
    cases file.field "expires_at" >>= fromisoformat iso with
    | error e => exact hnull
    | ok e => exact hnull

theorem init_eq (h : token ∈ file.token?) :
    init iso margin file = ⟨margin, token, (file.expiry? iso).getD .minUtc⟩ := by
  obtain ⟨ht, -⟩ := Option.filter_eq_some_iff.mp h
  unfold init load Content.expiry?
  rw [toOption_eq_some_iff.mp ht]
  cases file.field "expires_at" >>= fromisoformat iso with
  | error e => rfl
  | ok e => rfl

theorem expiring_ok_iff (hnow : now.utcoffset = some 0) {b : Bool} :
    c.expiring now = .ok b ↔ c.expiresAt.utcoffset.isSome ∧
      (0 ≤ c.expiresAt.micros - c.margin ∧ c.expiresAt.micros - c.margin ≤ maxMicros) ∧
      b = decide (c.expiresAt.instant - c.margin ≤ now.instant) := by
  unfold expiring
  rw [bind_ok_iff]
  constructor
  · rintro ⟨u, hu, hb⟩
    obtain ⟨hfits, ho, hi⟩ := Datetime.sub_ok hu
    obtain ⟨hsome, rfl⟩ := (Datetime.ge_ok_iff hnow).mp hb
    exact ⟨ho ▸ hsome, hfits, by rw [hi]⟩
  · rintro ⟨hsome, hfits, rfl⟩
    obtain ⟨u, hu⟩ := Datetime.exists_sub hfits
    obtain ⟨-, ho, hi⟩ := Datetime.sub_ok hu
    exact ⟨u, hu, (Datetime.ge_ok_iff hnow).mpr ⟨ho ▸ hsome, by rw [hi]⟩⟩

theorem get_of_isNull (issued : Text × Datetime) (now : Datetime) (h : c.token.isNull) :
    c.get false now issued =
      .ok ⟨.str issued.1, true, { c with token := .str issued.1, expiresAt := issued.2 }⟩ := by
  simp [get, h, bind, Except.bind, pure, Except.pure]

theorem get_ok_iff (h : c.token.isNull = false) {a : Answer} :
    c.get false now issued = .ok a ↔ ∃ b, c.expiring now = .ok b ∧ a = if b then
      ⟨.str issued.1, true, { c with token := .str issued.1, expiresAt := issued.2 }⟩
      else ⟨c.token, false, c⟩ := by
  simp only [get, h, Bool.or_self, Bool.false_eq_true, if_false, bind_ok_iff]
  refine exists_congr fun b => and_congr_right fun _ => ?_
  cases b <;> simp [pure, Except.pure, eq_comm]

end TokenCache

theorem not_isNull (h : token ∈ file.token?) : token.isNull = false := by
  simpa using (Option.filter_eq_some_iff.mp h).2

/-- A text with an expiry that has an offset is the pair of the file. -/
theorem pair?_eq_some {s : Text} {e : Datetime} (ht : file.token? = some (.str s))
    (he : file.expiry? iso = some e) (ho : e.utcoffset.isSome) :
    file.pair? iso = some (s, e) := by
  simp [Content.pair?, ht, he, ho]

/-- A file has no pair when its token is no text or has no expiry. -/
theorem pair?_eq_none (ht : token ∈ file.token?)
    (h : ¬ (token.isStr ∧ (file.expiry? iso).isSome)) : file.pair? iso = none := by
  rw [Content.pair?, ht]
  cases token with
  | str s =>
    have he : file.expiry? iso = none := by simpa [Json.isStr] using h
    rw [he]
  | _ => rfl

theorem get_init_ok_iff (hnow : now.utcoffset = some 0) (h : token ∈ file.token?) {a : Answer} :
    (TokenCache.init iso margin file).get false now issued = .ok a ↔
      let e := (file.expiry? iso).getD .minUtc
      e.utcoffset.isSome ∧ (0 ≤ e.micros - margin ∧ e.micros - margin ≤ maxMicros) ∧
        a = if e.instant - margin ≤ now.instant then
          ⟨.str issued.1, true, ⟨margin, .str issued.1, issued.2⟩⟩
          else ⟨token, false, ⟨margin, token, e⟩⟩ := by
  rw [TokenCache.init_eq h, TokenCache.get_ok_iff (not_isNull h)]
  constructor
  · rintro ⟨b, hb, rfl⟩
    obtain ⟨hsome, hfits, rfl⟩ := (TokenCache.expiring_ok_iff hnow).mp hb
    exact ⟨hsome, hfits, by simp only [decide_eq_true_eq]⟩
  · rintro ⟨hsome, hfits, rfl⟩
    exact ⟨_, (TokenCache.expiring_ok_iff hnow).mpr ⟨hsome, hfits, rfl⟩,
      by simp only [decide_eq_true_eq]⟩

/-- The cache tolerates exactly the files that are usable. -/
theorem cache_tolerates_iff {iso : Text → Option Datetime} {margin : ℤ} {now : Datetime}
    (hnow : now.utcoffset = some 0) (issued : Text × Datetime) (file : Content) :
    Tolerates iso margin now issued file ↔ Usable iso margin now file := by
  cases ht : file.token? with
  | none =>
    have hget := TokenCache.get_of_isNull issued now
      (TokenCache.isNull_init iso margin ht)
    refine ⟨fun _ token hmem => by simp [ht] at hmem, fun _ => ?_⟩
    exact ⟨_, hget, fun _ => rfl, fun h => by cases h⟩
  | some token =>
    have hmem : token ∈ file.token? := ht
    constructor
    · rintro ⟨a, hget, hreq, -⟩ token' hmem'
      obtain rfl : token = token' := Option.mem_unique hmem hmem'
      obtain ⟨hsome, hfits, rfl⟩ := (get_init_ok_iff hnow hmem).mp hget
      refine ⟨hsome, hfits, ?_⟩
      by_contra hor
      obtain ⟨hpair, hdue⟩ := not_or.mp hor
      rw [if_neg hdue] at hreq
      cases hreq (pair?_eq_none hmem hpair)
    · rintro h
      obtain ⟨hsome, hfits, hor⟩ := h token hmem
      refine ⟨_, (get_init_ok_iff hnow hmem).mpr ⟨hsome, hfits, rfl⟩, ?_⟩
      split_ifs with hdue
      · exact ⟨fun _ => rfl, fun h => by cases h⟩
      · obtain ⟨hstr, he⟩ := hor.resolve_right hdue
        obtain ⟨e, he⟩ := Option.isSome_iff_exists.mp he
        rw [he, Option.getD_some] at hsome hdue
        cases token with
        | str s =>
          have hpair := pair?_eq_some ht he hsome
          refine ⟨fun hnone => ?_, fun _ => ⟨s, e, hpair, rfl, by omega⟩⟩
          rw [hpair] at hnone
          cases hnone
        | _ => cases hstr

/-- `DEFAULT_EXPIRY_MARGIN` -/
def defaultExpiryMargin : ℤ := 10 * 60 * 1000000

def demoNow : Datetime where
  micros := 63902822400000000
  utcoffset := some 0
  fits := by decide

def demoIssued : Text × Datetime := (text "new", { demoNow with
  micros := demoNow.micros + 86400000000, fits := by decide })

/-- Reads the expiry of `demoFile`, an hour later, and no other text. -/
def demoIso (s : Text) : Option Datetime :=
  if s = text "2026-01-01T01:00:00+00:00" then
    some { demoNow with micros := demoNow.micros + 3600000000, fits := by decide }
  else none

def demoFile : Content := .ok (.obj [(text "token", .str (text "old")),
  (text "expires_at", .str (text "2026-01-01T01:00:00+00:00"))])

theorem tolerates_iff_demo :
    Tolerates demoIso defaultExpiryMargin demoNow demoIssued demoFile ↔
      Usable demoIso defaultExpiryMargin demoNow demoFile :=
  cache_tolerates_iff rfl demoIssued demoFile

/-- A file with a token and no expiry. -/
def demoHalf : Content := .ok (.obj [(text "token", .str (text "old"))])

/-- The first of all times has no time ten minutes before it. -/
theorem not_tolerates_half :
    ¬ Tolerates demoIso defaultExpiryMargin demoNow demoIssued demoHalf := by
  rintro ⟨a, hget, -⟩
  have : (TokenCache.init demoIso defaultExpiryMargin demoHalf).get false demoNow demoIssued =
      .error .arithmeticError := rfl
  rw [this] at hget
  cases hget

end QuantTrader.OAuth
