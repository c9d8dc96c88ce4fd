import QuantTrader.Backtest.CrossSectional

/-! # Market hours

An instant is a number of microseconds; a time zone says how far its local clock is off.
The local dates of a zone come in order, though its clock may be set back in a day. Years
are not bounded here.
-/

namespace QuantTrader.Market

open Backtest (AssetClass assetClass)

def secondMicros : ℤ := 1000000

def hourMicros : ℤ := 3600 * secondMicros

def dayMicros : ℤ := 24 * hourMicros

/-- `datetime.fromtimestamp` in UTC: rounded to microseconds, half to even. -/
def fromTimestamp (ts : ℚ) : ℤ := Nearest.halfEven.toInt (ts * secondMicros)

theorem fromTimestamp_mono {a b : ℚ} (h : a ≤ b) : fromTimestamp a ≤ fromTimestamp b := by
  have hpos : (0 : ℚ) ≤ secondMicros := by decide
  exact Nearest.toInt_mono _ (mul_le_mul_of_nonneg_right h hpos)

/-- A time zone: the offset of its clock at every instant, by which no date comes back. -/
structure Zone where
  offset : ℤ → ℤ
  date_mono : ∀ a b, a ≤ b → (a + offset a) / dayMicros ≤ (b + offset b) / dayMicros

namespace Zone

/-- A zone whose clock is never set. -/
def fixed (offset : ℤ) : Zone where
  offset _ := offset
  date_mono a b h := Int.ediv_le_ediv (by decide) (by omega)

def utc : Zone := fixed 0

/-- `_KST` -/
def kst : Zone := fixed (9 * hourMicros)

variable (zone : Zone) (now : ℤ)

def clock : ℤ := now + zone.offset now

def date : ℤ := zone.clock now / dayMicros

def timeOfDay : ℤ := zone.clock now % dayMicros

end Zone

variable (eastern : Zone) (symbol : String) (now : ℤ)

/-- `_local_tz`, with the zone of New York. -/
def localZone : Zone :=
  match assetClass symbol with
  | .coin => .utc
  | .stockKr => .kst
  | .stockUs => eastern

/-- `_KRX_CLOSE` and `_US_CLOSE`; coins have no close. -/
def closeTime : Option ℤ :=
  match assetClass symbol with
  | .coin => none
  | .stockKr => some (15 * hourMicros + 30 * 60 * secondMicros)
  | .stockUs => some (16 * hourMicros)

/-- `session_date`, as a number of days. -/
def sessionDate : ℤ := (localZone eastern symbol).date now

/-- `seconds_to_close`: the difference of two times on the local clock. -/
def secondsToClose : Option ℚ :=
  (closeTime symbol).map fun close =>
    (close - (localZone eastern symbol).timeOfDay now) / secondMicros

variable {eastern symbol}

theorem sessionDate_mono {a b : ℤ} (h : a ≤ b) :
    sessionDate eastern symbol a ≤ sessionDate eastern symbol b :=
  (localZone eastern symbol).date_mono a b h

end QuantTrader.Market
