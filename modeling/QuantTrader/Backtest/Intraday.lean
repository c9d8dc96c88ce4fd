import QuantTrader.Backtest.Disciplined
import QuantTrader.Market.Hours

/-! # Intraday sessions

The strategy holds a symbol within one session at most. It enters a session once, leaves
at the ticks near the close, and at the first tick of a session it sells what an earlier
one has left.
-/

namespace QuantTrader.Backtest

open Transition
open Ledger (Side)
open Market (Zone fromTimestamp sessionDate secondsToClose)

/-! ## The strategy -/

/-- `_Session` -/
structure Session where
  date : ℤ
  first : ℚ
  n : ℕ
  orHi : Option ℚ
  windowClose : Option ℚ
  windowDone : Bool
  entered : Bool

namespace Session

def start (date : ℤ) (firstPrice : ℚ) : Session := ⟨date, firstPrice, 0, none, none, false, false⟩

def update (s : Session) (price : ℚ) (openingBars : ℤ) : Session :=
  let n := s.n + 1
  if n ≤ openingBars then
    let orHi := match s.orHi with
      | none => price
      | some hi => if hi < price then price else hi
    if n = openingBars then
      { s with n, orHi := some orHi, windowClose := some price, windowDone := true }
    else { s with n, orHi := some orHi }
  else { s with n }

@[simp] theorem update_date (s : Session) (price : ℚ) (openingBars : ℤ) :
    (s.update price openingBars).date = s.date := by
  unfold update
  dsimp only
  split_ifs <;> rfl

@[simp] theorem update_entered (s : Session) (price : ℚ) (openingBars : ℤ) :
    (s.update price openingBars).entered = s.entered := by
  unfold update
  dsimp only
  split_ifs <;> rfl

end Session

/-- `IntradaySessionStrategy`; `_should_enter` is its signal. -/
structure IntradaySession where
  barSec : ℚ
  openingBars : ℤ
  orderFraction : ℚ
  shouldEnter : ℚ → Session → Except Signal Bool

abbrev Sessions := String → Option Session

/-- A sale of all that is held of a symbol, if anything is. -/
def Script.sellAll {S : Type} (sym reason : String) (ts price : ℚ) (k : Script S) : Script S :=
  .read fun v =>
    if 0 < v.positionQty sym then .sell sym (v.positionQty sym) reason ts (some price) fun _ => k
    else k

namespace IntradaySession

variable (c : Context) (eastern : Zone) (p : IntradaySession)

/-- `_should_enter` of `ORBStrategy`. -/
def breakout (price : ℚ) (s : Session) : Except Signal Bool :=
  return s.windowDone && s.orHi.any (· < price)

/-- `_should_enter` of `IntradayMomentumStrategy`. -/
def momentum (threshold : ℚ) (_price : ℚ) (s : Session) : Except Signal Bool :=
  match s.windowClose with
  | none => return false
  | some close =>
    if !s.windowDone || s.first ≤ 0 then return false
    else do return threshold < (← c.finish ((← c.divFin close s.first) - 1))

/-- The tick is within a bar of the close of its session, or after it. -/
def closing (t : Tick) : Bool :=
  (secondsToClose eastern t.symbol (fromTimestamp t.ts)).any (· ≤ p.barSec)

/-- `on_tick`, in the session of the tick. -/
def inSession (st : Sessions) (t : Tick) (s : Session) : Script Sessions :=
  let s := s.update t.price p.openingBars
  let set s := Function.update st t.symbol (some s)
  if p.closing eastern t then
    .sellAll t.symbol "SESSION_CLOSE" t.ts t.price (.done (set { s with entered := true }))
  else if s.entered then .done (set s)
  else .read fun v =>
    if v.positionQty t.symbol ≠ 0 then .done (set s)
    else match p.shouldEnter t.price s with
      | .error e => .fail e
      | .ok false => .done (set s)
      | .ok true =>
        match Disciplined.entryQty c t.price (.ok p.orderFraction) v.cash with
        | .error e => .fail e
        | .ok none => .done (set s)
        | .ok (some qty) =>
          .buy t.symbol qty t.ts (some t.price) fun ok =>
            .done (set (if ok then { s with entered := true } else s))

/-- `on_tick` -/
def onTick (st : Sessions) (t : Tick) : Script Sessions :=
  let d := sessionDate eastern t.symbol (fromTimestamp t.ts)
  match (st t.symbol).filter (·.date = d) with
  | some s => inSession c eastern p st t s
  | none => .sellAll t.symbol "SESSION_END" t.ts t.price
      (inSession c eastern p st t (.start d t.price))

def init : Sessions := fun _ => none

end IntradaySession

/-! ## The journal of a symbol -/

def visits (sym : String) (j : Journal) : List Tick :=
  (j.map Prod.fst).filter (·.symbol = sym)

def fillsOf (sym : String) (j : Journal) : List Filled :=
  (j.flatMap Prod.snd).filter (·.symbol = sym)

def bought (fills : List Filled) : List ℚ := (fills.filter (·.side = .buy)).map Filled.ts

/-- A buy adds its time, a sale that leaves nothing takes all of them. -/
def lot (lots : List ℚ) (f : Filled) : List ℚ :=
  if f.side = .buy then lots ++ [f.ts] else if f.left ≤ 0 then [] else lots

/-- When what is held was bought. -/
def lots (fills : List Filled) : List ℚ := fills.foldl lot []

namespace IntradaySession

def session (eastern : Zone) (sym : String) (ts : ℚ) : ℤ :=
  sessionDate eastern sym (fromTimestamp ts)

/-- What a run of a strategy keeps to: it buys once a session, is flat from a tick near the
close to the end of the session, and holds from the session of a tick on only what was
bought in it or later. -/
structure Flattens (eastern : Zone) (p : IntradaySession) (ticks : List Tick) (a : Account)
    (j : Journal) : Prop where
  once : ∀ sym, ((bought (fillsOf sym j)).map (session eastern sym)).Nodup
  flat : ∀ t ∈ ticks, p.closing eastern t →
    (∀ u ∈ ticks, u.symbol = t.symbol → session eastern u.symbol u.ts ≤
      session eastern t.symbol t.ts) → a.qty t.symbol = 0
  overnight : ∀ t ∈ ticks, ∀ b ∈ lots (fillsOf t.symbol j),
    session eastern t.symbol t.ts ≤ session eastern t.symbol b

/-! ## One symbol -/

section Day

variable {eastern : Zone} {p : IntradaySession} {sym : String} {s s' : Session}
  {position : Option Position} {ticks : List Tick} {fills fills' : List Filled} {f : Filled}
  {t : Tick} {d : ℤ} {price : ℚ}

theorem session_mono {a b : ℚ} (h : a ≤ b) : session eastern sym a ≤ session eastern sym b :=
  Market.sessionDate_mono (Market.fromTimestamp_mono h)

/-- A session of a symbol after its ticks and its fills. -/
structure Day (eastern : Zone) (p : IntradaySession) (sym : String) (s : Session)
    (position : Option Position) (ticks : List Tick) (fills : List Filled) : Prop where
  last : ∀ u ∈ ticks, session eastern sym u.ts ≤ s.date
  once : ((bought fills).map (session eastern sym)).Nodup
  upTo : ∀ b ∈ bought fills, session eastern sym b ≤ s.date
  fresh : s.entered = false → ∀ b ∈ bought fills, session eastern sym b ≠ s.date
  held : ∀ b ∈ lots fills, session eastern sym b = s.date
  flat : position = none → lots fills = []
  closed : ∀ u ∈ ticks, session eastern sym u.ts = s.date → p.closing eastern u →
    s.entered = true ∧ position = none

def Swept (position : Option Position) (fills : List Filled) : Prop :=
  position = none ∧ fills = [] ∨ ∃ f, fills = [f] ∧ f.side = .sell ∧ f.left = 0

theorem lots_snoc : lots (fills ++ [f]) = lot (lots fills) f := by simp [lots]

namespace Swept

theorem bought_eq (h : Swept position fills') : bought (fills ++ fills') = bought fills := by
  rcases h with ⟨-, rfl⟩ | ⟨f, rfl, hside, -⟩
  · rw [List.append_nil]
  · simp [bought, hside]

theorem lots_eq (h : Swept position fills') (hflat : position = none → lots fills = []) :
    lots (fills ++ fills') = [] := by
  rcases h with ⟨hnone, rfl⟩ | ⟨f, rfl, hside, hleft⟩
  · rw [List.append_nil, hflat hnone]
  · simp [lots_snoc, lot, hside, hleft]

end Swept

namespace Day

theorem first : Day eastern p sym (.start d price) none [] [] where
  last := by simp
  once := by simp [bought]
  upTo := by simp [bought]
  fresh := by simp [bought]
  held := by simp [lots]
  flat _ := rfl
  closed := by simp

theorem sweep (h : Day eastern p sym s position ticks fills) (hswept : Swept position fills') :
    Day eastern p sym s none ticks (fills ++ fills') where
  last := h.last
  once := by rw [hswept.bought_eq]; exact h.once
  upTo := by rw [hswept.bought_eq]; exact h.upTo
  fresh := by rw [hswept.bought_eq]; exact h.fresh
  held := by simp [hswept.lots_eq h.flat]
  flat _ := hswept.lots_eq h.flat
  closed u hu hdate hclosing := ⟨(h.closed u hu hdate hclosing).1, rfl⟩

theorem next (h : Day eastern p sym s none ticks fills) (hd : s.date < d) :
    Day eastern p sym (.start d price) none ticks fills where
  last u hu := (h.last u hu).trans hd.le
  once := h.once
  upTo b hb := (h.upTo b hb).trans hd.le
  fresh _ b hb := ((h.upTo b hb).trans_lt hd).ne
  held := by simp [h.flat rfl]
  flat := h.flat
  closed u hu hdate := absurd hdate ((h.last u hu).trans_lt hd).ne

theorem congr (h : Day eastern p sym s position ticks fills) (hdate : s'.date = s.date)
    (hentered : s'.entered = s.entered) : Day eastern p sym s' position ticks fills := by
  obtain ⟨hlast, honce, hupTo, hfresh, hheld, hflat, hclosed⟩ := h
  rw [← hdate] at hlast hupTo hfresh hheld hclosed
  rw [← hentered] at hfresh hclosed
  exact ⟨hlast, honce, hupTo, hfresh, hheld, hflat, hclosed⟩

/-- A tick of the session; near the close nothing is held and nothing more is bought. -/
theorem visit (h : Day eastern p sym s position ticks fills)
    (ht : session eastern sym t.ts = s.date)
    (hclosing : p.closing eastern t → s.entered = true ∧ position = none) :
    Day eastern p sym s position (ticks ++ [t]) fills where
  last u hu := by
    rcases List.mem_append.mp hu with hu | hu
    · exact h.last u hu
    · rw [List.mem_singleton.mp hu, ht]
  once := h.once
  upTo := h.upTo
  fresh := h.fresh
  held := h.held
  flat := h.flat
  closed u hu := by
    rcases List.mem_append.mp hu with hu | hu
    · exact h.closed u hu
    · rw [List.mem_singleton.mp hu]
      exact fun _ => hclosing

theorem leave (h : Day eastern p sym s none ticks fills) :
    Day eastern p sym { s with entered := true } none ticks fills where
  last := h.last
  once := h.once
  upTo := h.upTo
  fresh hs := by cases hs
  held := h.held
  flat := h.flat
  closed _ _ _ _ := ⟨rfl, rfl⟩

theorem enter (h : Day eastern p sym s none ticks fills) (hs : s.entered = false)
    (hside : f.side = .buy) (hts : session eastern sym f.ts = s.date) (q : Position) :
    Day eastern p sym { s with entered := true } (some q) ticks (fills ++ [f]) := by
  have hbought : bought (fills ++ [f]) = bought fills ++ [f.ts] := by simp [bought, hside]
  have hlots : lots (fills ++ [f]) = [f.ts] := by simp [lots_snoc, lot, hside, h.flat rfl]
  refine ⟨h.last, ?_, ?_, ?_, ?_, ?_, ?_⟩
  · rw [hbought, List.map_append, List.nodup_append]
    refine ⟨h.once, by simp, ?_⟩
    rintro x hx y hy rfl
    obtain ⟨b, hb, rfl⟩ := List.mem_map.mp hx
    refine h.fresh hs b hb ?_
    simpa [hts] using hy
  · rintro b hb
    rw [hbought] at hb
    rcases List.mem_append.mp hb with hb | hb
    · exact h.upTo b hb
    · rw [List.mem_singleton.mp hb]
      exact hts.le
  · rintro ⟨⟩
  · rintro b hb
    rw [hlots] at hb
    rw [List.mem_singleton.mp hb]
    exact hts
  · rintro ⟨⟩
  · rintro u hu hdate hclosing
    have hentered := (h.closed u hu hdate hclosing).1
    rw [hs] at hentered
    cases hentered

end Day

end Day

/-! ## One tick -/

section Tick

variable {S : Type} {c : Context} {eastern : Zone} {p : IntradaySession} {sym reason : String}
  {ts price : ℚ} {cfg : EngineConfig} {e e' : Engine} {fills fs : List Filled} {s : Session}
  {st st' : Sessions} {t : Tick} {ticks : List Tick}

theorem sellAll_cases {k : Script S} {y : S × Engine} (hw : e.book.account.Whole)
    (hprice : 0 < price)
    (h : (Script.sellAll sym reason ts price k).execFills cfg e = .ok (y, fills)) :
    ∃ e₁ fills₁ fills₂, k.execFills cfg e₁ = .ok (y, fills₂) ∧ fills = fills₁ ++ fills₂ ∧
      Engine.Only sym e e₁ fills₁ ∧ e₁.book.account.positions sym = none ∧
      Swept (e.book.account.positions sym) fills₁ := by
  unfold Script.sellAll at h
  change (ite (0 < e.book.account.qty sym) _ _ : Script S).execFills cfg e = .ok (y, fills) at h
  split_ifs at h with hheld
  · obtain ⟨⟨e₁, ok⟩, hsell, h⟩ := bind_ok_iff.mp h
    obtain ⟨⟨y₁, fills₂⟩, hk, h⟩ := bind_ok_iff.mp h
    obtain ⟨rfl, rfl⟩ := Prod.mk.inj (Except.ok.inj h)
    obtain rfl : ok = true := Engine.sellAt_held hw hheld hprice hsell
    rcases Engine.sellAt_cases hw hsell with ⟨hok, -⟩ | ⟨-, hw₁, -, hnone, hframe⟩
    · cases hok
    · refine ⟨e₁, [_], fills₂, hk, rfl, ⟨hw₁, hframe, by simp⟩, hnone, .inr ⟨_, rfl, rfl, ?_⟩⟩
      exact Account.qty_of_none hnone
  · have hnone := hw.eq_none (not_lt.mp hheld)
    exact ⟨e, [], fills, h, rfl, .refl hw, hnone, .inl ⟨hnone, rfl⟩⟩

/-- The tick has left its symbol in a session of a date, with its fills. -/
def LeftIn (eastern : Zone) (p : IntradaySession) (t : Tick) (date : ℤ) (ticks : List Tick)
    (fs : List Filled) (st : Sessions) (e : Engine) (st' : Sessions) (e' : Engine)
    (fills : List Filled) : Prop :=
  ∃ s', st' = Function.update st t.symbol (some s') ∧ s'.date = date ∧
    Engine.Only t.symbol e e' fills ∧
    Day eastern p t.symbol s' (e'.book.account.positions t.symbol) ticks (fs ++ fills)

theorem stay_cases (hw : e.book.account.Whole)
    (hday : Day eastern p t.symbol s (e.book.account.positions t.symbol) ticks fs)
    (h : (Script.done (Function.update st t.symbol (some s))).execFills cfg e =
      .ok ((st', e'), fills)) :
    LeftIn eastern p t s.date ticks fs st e st' e' fills := by
  obtain ⟨hx, rfl⟩ := Prod.mk.inj (Except.ok.inj h)
  obtain ⟨rfl, rfl⟩ := Prod.mk.inj hx
  exact ⟨s, rfl, rfl, .refl hw, by rwa [List.append_nil]⟩

theorem entry_cases {qty : ℚ} (hw : e.book.account.Whole)
    (hflat : e.book.account.positions t.symbol = none)
    (hday : Day eastern p t.symbol s none ticks fs) (hentered : s.entered = false)
    (ht : session eastern t.symbol t.ts = s.date)
    (h : (Script.buy t.symbol qty t.ts (some t.price) fun ok => Script.done
      (Function.update st t.symbol (some (if ok then { s with entered := true } else s)))).execFills
        cfg e = .ok ((st', e'), fills)) :
    LeftIn eastern p t s.date ticks fs st e st' e' fills := by
  obtain ⟨⟨e₁, ok⟩, hbuy, h⟩ := bind_ok_iff.mp h
  obtain ⟨⟨y, fills₂⟩, hk, h⟩ := bind_ok_iff.mp h
  obtain ⟨rfl, rfl⟩ := Prod.mk.inj (Except.ok.inj h)
  have hqty : e.book.account.qty t.symbol ≤ 0 := (Account.qty_of_none hflat).le
  rcases Engine.buyAt_cases hw hqty hbuy with ⟨rfl, rfl⟩ | ⟨rfl, hw₁, -, q, -, -, hq, hframe⟩
  · rw [← hflat] at hday
    exact stay_cases hw hday hk
  · simp only [if_true] at hk
    obtain ⟨hx, rfl⟩ := Prod.mk.inj (Except.ok.inj hk)
    obtain ⟨rfl, rfl⟩ := Prod.mk.inj hx
    refine ⟨{ s with entered := true }, rfl, rfl, ⟨hw₁, hframe, by simp⟩, ?_⟩
    simp only [if_true, hq]
    have hside : (⟨t.symbol, .buy, adjustQty t.symbol qty, t.ts,
      e₁.book.account.qty t.symbol⟩ : Filled).side = .buy := rfl
    exact hday.enter hentered hside ht q

theorem inSession_cases (hw : e.book.account.Whole) (hprice : 0 < t.price)
    (hday : Day eastern p t.symbol s (e.book.account.positions t.symbol) ticks fs)
    (ht : session eastern t.symbol t.ts = s.date)
    (h : (inSession c eastern p st t s).execFills cfg e = .ok ((st', e'), fills)) :
    LeftIn eastern p t s.date (ticks ++ [t]) fs st e st' e' fills := by
  have hdate := s.update_date t.price p.openingBars
  have hday : Day eastern p t.symbol (s.update t.price p.openingBars) _ ticks fs :=
    hday.congr hdate (s.update_entered t.price p.openingBars)
  rw [← hdate] at ht ⊢
  unfold inSession at h
  generalize s.update t.price p.openingBars = s₁ at *
  dsimp only at h
  split_ifs at h with hclosing hentered
  · obtain ⟨e₁, fills₁, fills₂, hk, rfl, honly, hnone, hswept⟩ := sellAll_cases hw hprice h
    obtain ⟨hx, rfl⟩ := Prod.mk.inj (Except.ok.inj hk)
    obtain ⟨rfl, rfl⟩ := Prod.mk.inj hx
    refine ⟨_, rfl, rfl, by rwa [List.append_nil], ?_⟩
    rw [List.append_nil, hnone]
    exact (hday.sweep hswept).leave.visit ht fun _ => ⟨rfl, rfl⟩
  · exact stay_cases hw (hday.visit ht fun hc => absurd hc hclosing) h
  · have hvisit := hday.visit ht fun hc => absurd hc hclosing
    change (ite (e.book.account.qty t.symbol ≠ 0) _ _ : Script Sessions).execFills cfg e =
      .ok ((st', e'), fills) at h
    split_ifs at h with hheld
    · exact stay_cases hw hvisit h
    · have hflat := hw.eq_none (not_not.mp hheld).le
      cases hsignal : p.shouldEnter t.price s₁ with
      | error err => simp [hsignal, Script.execFills] at h
      | ok signal =>
        cases signal with
        | false =>
          simp only [hsignal] at h
          exact stay_cases hw hvisit h
        | true =>
          simp only [hsignal] at h
          cases hqty : Disciplined.entryQty c t.price (.ok p.orderFraction) e.view.cash with
          | error err => simp [hqty, Script.execFills] at h
          | ok qty =>
            cases qty with
            | none =>
              simp only [hqty] at h
              exact stay_cases hw hvisit h
            | some qty =>
              simp only [hqty] at h
              rw [hflat] at hvisit
              exact entry_cases hw hflat hvisit (Bool.eq_false_iff.mpr hentered) ht h

theorem onTick_cases (hw : e.book.account.Whole) (hprice : 0 < t.price)
    (hseen : ∀ s, st t.symbol = some s → s.date ≤ session eastern t.symbol t.ts ∧
      Day eastern p t.symbol s (e.book.account.positions t.symbol) ticks fs)
    (hunseen : st t.symbol = none →
      e.book.account.positions t.symbol = none ∧ ticks = [] ∧ fs = [])
    (h : (onTick c eastern p st t).execFills cfg e = .ok ((st', e'), fills)) :
    LeftIn eastern p t (session eastern t.symbol t.ts) (ticks ++ [t]) fs st e st' e' fills := by
  unfold onTick at h
  cases hfilter : (st t.symbol).filter fun s => s.date = session eastern t.symbol t.ts with
  | some s =>
    rw [session] at hfilter
    simp only [hfilter] at h
    obtain ⟨hs, hdate⟩ := Option.filter_eq_some_iff.mp hfilter
    have hdate : s.date = session eastern t.symbol t.ts := of_decide_eq_true hdate
    obtain ⟨s', hst, hdate', hcases⟩ := inSession_cases hw hprice (hseen s hs).2 hdate.symm h
    exact ⟨s', hst, hdate'.trans hdate, hcases⟩
  | none =>
    rw [session] at hfilter
    simp only [hfilter] at h
    obtain ⟨e₁, fills₁, fills₂, hk, rfl, honly, hnone, hswept⟩ := sellAll_cases hw hprice h
    have hday : Day eastern p t.symbol (.start (session eastern t.symbol t.ts) t.price)
        (e₁.book.account.positions t.symbol) ticks (fs ++ fills₁) := by
      rw [hnone]
      cases hs : st t.symbol with
      | none =>
        obtain ⟨hpos, rfl, rfl⟩ := hunseen hs
        rw [hpos] at hswept
        have hfirst : Day eastern p t.symbol
            (.start (session eastern t.symbol t.ts) t.price) none [] [] := .first
        exact hfirst.sweep hswept
      | some s =>
        obtain ⟨hle, hday⟩ := hseen s hs
        have hne : s.date ≠ session eastern t.symbol t.ts := by
          rintro heq
          simp [hs, heq, session] at hfilter
        exact (hday.sweep hswept).next (lt_of_le_of_ne hle hne)
    obtain ⟨s', hst, hdate, honly', hday'⟩ := inSession_cases honly.whole hprice hday rfl hk
    refine ⟨s', hst, hdate, honly.trans honly', ?_⟩
    rwa [← List.append_assoc]

end Tick

/-! ## A run -/

section Run

variable {eastern : Zone} {p : IntradaySession} {sym : String} {st st' : Sessions} {r r' : Replay}
  {j j' : Journal} {t : Tick} {fills : List Filled} {cfg : ReplayConfig} {cash : ℚ}
  {ticks : List Tick} {a : Account}

/-- Every symbol that had a tick is in a session of one of its ticks. -/
structure Tracked (eastern : Zone) (p : IntradaySession) (st : Sessions) (a : Account)
    (j : Journal) : Prop where
  whole : a.Whole
  unseen : ∀ sym, st sym = none → a.positions sym = none ∧ visits sym j = [] ∧ fillsOf sym j = []
  seen : ∀ sym s, st sym = some s →
    (∃ u ∈ visits sym j, session eastern sym u.ts = s.date) ∧
      Day eastern p sym s (a.positions sym) (visits sym j) (fillsOf sym j)

theorem visits_snoc : visits sym (j ++ [(t, fills)]) =
    if t.symbol = sym then visits sym j ++ [t] else visits sym j := by
  by_cases h : t.symbol = sym <;> simp [visits, h]

theorem fillsOf_snoc_self (h : ∀ f ∈ fills, f.symbol = sym) :
    fillsOf sym (j ++ [(t, fills)]) = fillsOf sym j ++ fills := by
  simpa [fillsOf] using h

theorem fillsOf_snoc_ne (h : ∀ f ∈ fills, f.symbol = t.symbol) (hne : t.symbol ≠ sym) :
    fillsOf sym (j ++ [(t, fills)]) = fillsOf sym j := by
  simp only [fillsOf, List.flatMap_append, List.filter_append]
  have hnil : fills.filter (·.symbol = sym) = [] := by
    refine List.filter_eq_nil_iff.mpr ?_
    rintro f hf
    simpa [h f hf] using hne
  simpa using hnil

theorem mem_visits {u : Tick} : u ∈ visits sym j ↔ u ∈ j.map Prod.fst ∧ u.symbol = sym := by
  simp [visits]

theorem Tracked.init : Tracked eastern p init (Replay.init cash).book.account [] where
  whole := by simp [Account.Whole, Replay.init, Engine.init]
  unseen _ _ := ⟨rfl, rfl, rfl⟩
  seen _ _ h := by cases h

theorem Tracked.tick (h : Tracked eastern p st r.book.account j) (hprice : 0 < t.price)
    (hle : ∀ u ∈ j.map Prod.fst, u.ts ≤ t.ts)
    (ht : Replay.tickFills cfg (onTick cfg.context eastern p) ((st, r), j) t =
      .ok ((st', r'), j')) :
    Tracked eastern p st' r'.book.account j' := by
  obtain ⟨e, e', fills, hbook, -, hexec, hbook', rfl⟩ := Replay.tickFills_cases ht
  rw [← hbook] at h
  have hseen : ∀ s, st t.symbol = some s → s.date ≤ session eastern t.symbol t.ts ∧
      Day eastern p t.symbol s (e.book.account.positions t.symbol) (visits t.symbol j)
        (fillsOf t.symbol j) := by
    rintro s hs
    obtain ⟨⟨u, hu, hudate⟩, hday⟩ := h.seen t.symbol s hs
    exact ⟨hudate ▸ session_mono (hle u (mem_visits.mp hu).1), hday⟩
  obtain ⟨s', rfl, hdate, honly, hday⟩ :=
    onTick_cases h.whole hprice hseen (h.unseen t.symbol) hexec
  rw [hbook']
  refine ⟨honly.whole, ?_, ?_⟩
  · rintro sym hsym
    rcases eq_or_ne sym t.symbol with rfl | hne
    · simp at hsym
    · rw [Function.update_of_ne hne] at hsym
      rw [honly.positions sym hne, visits_snoc, if_neg hne.symm,
        fillsOf_snoc_ne honly.fills hne.symm]
      exact h.unseen sym hsym
  · rintro sym s hs
    rcases eq_or_ne sym t.symbol with rfl | hne
    · rw [Function.update_self] at hs
      obtain rfl := Option.some.inj hs
      rw [visits_snoc, if_pos rfl, fillsOf_snoc_self honly.fills]
      exact ⟨⟨t, by simp, hdate.symm⟩, hday⟩
    · rw [Function.update_of_ne hne] at hs
      rw [honly.positions sym hne, visits_snoc, if_neg hne.symm,
        fillsOf_snoc_ne honly.fills hne.symm]
      exact h.seen sym s hs

theorem Tracked.session_of_mem (h : Tracked eastern p st a j) (ht : t ∈ j.map Prod.fst) :
    ∃ s, st t.symbol = some s ∧ t ∈ visits t.symbol j := by
  have hvisit : t ∈ visits t.symbol j := mem_visits.mpr ⟨ht, rfl⟩
  cases hs : st t.symbol with
  | some s => exact ⟨s, rfl, hvisit⟩
  | none =>
    rw [(h.unseen t.symbol hs).2.1] at hvisit
    cases hvisit

theorem Tracked.flattens (h : Tracked eastern p st a j) :
    Flattens eastern p (j.map Prod.fst) a j where
  once sym := by
    cases hs : st sym with
    | none => simp [(h.unseen sym hs).2.2, bought]
    | some s => exact (h.seen sym s hs).2.once
  flat t ht hclosing hlast := by
    obtain ⟨s, hs, hvisit⟩ := h.session_of_mem ht
    obtain ⟨⟨u, hu, hudate⟩, hday⟩ := h.seen t.symbol s hs
    obtain ⟨humem, husym⟩ := mem_visits.mp hu
    have hle := hlast u humem husym
    rw [husym, hudate] at hle
    exact Account.qty_of_none
      (hday.closed t hvisit (le_antisymm (hday.last t hvisit) hle) hclosing).2
  overnight t ht b hb := by
    obtain ⟨s, hs, hvisit⟩ := h.session_of_mem ht
    have hday := (h.seen t.symbol s hs).2
    exact (hday.last t hvisit).trans (hday.held b hb).ge

end Run

end IntradaySession

/-- On ticks in order with positive prices every run flattens its sessions. -/
theorem intraday_flattens {eastern : Zone} {p : IntradaySession} {cfg : ReplayConfig} {cash : ℚ}
    {ticks : List Tick} {st : Sessions} {r : Replay} {j : Journal}
    (hsorted : ticks.Pairwise (·.ts ≤ ·.ts)) (hprice : ∀ t ∈ ticks, 0 < t.price)
    (h : Replay.journaled cfg (p.onTick cfg.context eastern) IntradaySession.init cash ticks =
      .ok ((st, r), j)) : p.Flattens eastern ticks r.book.account j := by
  have htracked : p.Tracked eastern st r.book.account j := by
    refine Replay.journaled_induction (P := fun st r j => p.Tracked eastern st r.book.account j)
      .init ?_ h
    rintro st r j t st' r' j' hprefix htracked ht
    have hmem : t ∈ ticks := hprefix.subset (by simp)
    have hpairs := hsorted.sublist hprefix.sublist
    refine htracked.tick (hprice t hmem) ?_ ht
    rintro u hu
    exact (List.pairwise_append.mp hpairs).2.2 u hu t (List.mem_singleton_self t)
  have hticks := Replay.journaled_ticks h
  exact hticks ▸ htracked.flattens

/-- The clock of New York around 2026: summer time from March 8 to November 1. -/
def newYork : Zone where
  offset now :=
    if 1772953200 * 1000000 ≤ now ∧ now < 1793512800 * 1000000 then -4 * Market.hourMicros
    else -5 * Market.hourMicros
  date_mono a b h := by
    simp only [Market.hourMicros, Market.dayMicros, Market.secondMicros]
    split_ifs <;> omega

/-- A breakout over the first two bars, with half of the cash. -/
def openingRange : IntradaySession := ⟨60, 2, 1 / 2, IntradaySession.breakout⟩

/-- A breakout that is sold at the close, and one without a tick at the close. -/
def sessionTicks : List Tick :=
  [⟨"005930", 100, 1782691200⟩, ⟨"005930", 100, 1782691260⟩, ⟨"005930", 110, 1782691320⟩,
    ⟨"005930", 115, 1782714600⟩, ⟨"AAPL", 200, 1782739800⟩, ⟨"AAPL", 200, 1782739860⟩,
    ⟨"AAPL", 210, 1782739920⟩, ⟨"AAPL", 190, 1782826200⟩]

def sessionRun : Except Failure ((Sessions × Replay) × Journal) :=
  Replay.journaled minutely (openingRange.onTick minutely.context newYork) IntradaySession.init
    1000000 sessionTicks

/-- The fills of a symbol, as sides and what is held after them. -/
def sides (sym : String) (j : Journal) : List (Side × ℚ) :=
  (fillsOf sym j).map fun f => (f.side, f.left)

theorem intraday_flattens_demo : ∃ st r j, sessionRun = .ok ((st, r), j) ∧
    sides "005930" j = [(.buy, 4545), (.sell, 0)] ∧ sides "AAPL" j = [(.buy, 2431), (.sell, 0)] ∧
    openingRange.Flattens newYork sessionTicks r.book.account j := by
  have hview : (fun x : (Sessions × Replay) × Journal =>
      (sides "005930" x.2, sides "AAPL" x.2)) <$> sessionRun =
      .ok ([(.buy, 4545), (.sell, 0)], [(.buy, 2431), (.sell, 0)]) := by decide +kernel
  obtain ⟨⟨⟨st, r⟩, j⟩, hrun, hview⟩ := map_ok_iff.mp hview
  obtain ⟨hkrx, hus⟩ := Prod.mk.inj hview
  have hsorted : sessionTicks.Pairwise (·.ts ≤ ·.ts) := by decide +kernel
  have hprice : ∀ t ∈ sessionTicks, 0 < t.price := by decide +kernel
  exact ⟨st, r, j, hrun, hkrx, hus, intraday_flattens hsorted hprice hrun⟩

end QuantTrader.Backtest
