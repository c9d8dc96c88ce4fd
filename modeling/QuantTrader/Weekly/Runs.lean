import Mathlib.Data.List.Dedup
import QuantTrader.Decimal.Rounding
import QuantTrader.Transition.System

/-! # Weekly rebalancing

A run of the stock trader sells what has left the ranking, buys what has
entered it, looks at the account until the fills show or the deadline comes,
and marks its week. The broker fills orders at any time; a run can end at any
time.
-/

namespace QuantTrader.Weekly

open Transition

/-- `_iso_week`; days count from a Thursday, weeks are numbered through. -/
def isoWeek (day : ℤ) : ℤ := (day + 3) / 7

def Weekday (day : ℤ) : Prop := (day + 3) % 7 < 5

instance : DecidablePred Weekday := fun day => inferInstanceAs (Decidable ((day + 3) % 7 < 5))

inductive Side
  | buy | sell
  deriving DecidableEq

/-- A position of the account; its market value is `eval`. -/
structure Position where
  symbol : String
  qty : ℚ
  eval : ℚ

/-- What a run is started with and what it reads before its first order. -/
structure Inputs where
  day : ℤ
  holiday : Bool
  topN : ℕ
  maxOrders : ℕ
  ranked : List String
  cash : ℚ
  positions : List Position
  closes : String → Option ℚ

/-- The symbols of `build_plan`. -/
structure Plan where
  targets : List String
  buys : List String
  sells : List String

/-- `build_plan`. -/
def buildPlan (ranked : List String) (positions : List Position) : Plan :=
  let held := positions.map Position.symbol
  ⟨ranked, ranked.filter (· ∉ held), held.dedup.filter (· ∉ ranked)⟩

/-- `{x["symbol"]: x["qty"] for x in positions}`, with 0 for what is not held. -/
def qtyOf (positions : List Position) (symbol : String) : ℚ :=
  ((positions.reverse.find? fun x => x.symbol = symbol).map Position.qty).getD 0

/-- A line of the order list. -/
structure Item where
  symbol : String
  side : Side
  qty : ℤ

/-- The quantity of a purchase: an equal share of the account in whole shares. -/
def buyQty (i : Inputs) (symbol : String) : ℤ :=
  let equity := i.cash + (i.positions.map Position.eval).sum
  let perName := equity / max 1 (i.topN : ℚ)
  match i.closes symbol with
  | none => 0
  | some px => if 0 < px then ⌊perName / px⌋ else 0

/-- The orders of a run in their order: all sales, and the first purchases. -/
def items (i : Inputs) (p : Plan) : List Item :=
  p.sells.map (fun s => ⟨s, .sell, Nearest.halfEven.toInt (qtyOf i.positions s)⟩) ++
    (p.buys.take i.maxOrders).map fun s => ⟨s, .buy, buyQty i s⟩

/-- How the request of an order ends: with a reply, or with an exception, after which the broker
may have the order nevertheless. -/
inductive Outcome
  | accepted
  | rejected
  | raised (arrived : Bool)
  deriving DecidableEq

/-- An entry of `placed`. -/
structure Placed where
  symbol : String
  side : Side
  accepted : Bool

/-- The broker has the order afterwards. A purchase below one share is left out, and `place` refuses
a quantity that is not positive. -/
def Outcome.arrives (o : Outcome) (item : Item) : Bool :=
  0 < item.qty && match o with
    | accepted => true
    | rejected => false
    | raised arrived => arrived

/-- `_place`, and the entry of a purchase below one share. -/
def Outcome.entry (o : Outcome) (item : Item) : Placed :=
  ⟨item.symbol, item.side, 0 < item.qty && o = accepted⟩

/-- `sides`; a later entry of a symbol replaces an earlier one. -/
def sideOf (placed : List Placed) (symbol : String) : Side :=
  ((placed.reverse.find? fun o => o.symbol = symbol).map Placed.side).getD .buy

/-- The symbols that one look at the account shows as filled. -/
def moved (before after : List Position) (placed : List Placed) : List String :=
  (placed.map Placed.symbol).dedup.filter fun s =>
    match sideOf placed s with
    | .buy => qtyOf before s < qtyOf after s
    | .sell => qtyOf after s < qtyOf before s

/-- `completed` with `rebalance_sells`. -/
def completed (p : Plan) (placed : List Placed) (filled : List String) : Bool :=
  if p.targets = [] then false
  else if p.buys = [] ∧ p.sells = [] then true
  else placed.any fun o => o.symbol ∈ filled

/-- A run that has passed its guard: the orders to place, then the looks at the account. -/
structure Running where
  week : ℤ
  plan : Plan
  before : List Position
  todo : List Item
  placed : List Placed
  filled : List String
  looking : Bool

/-- An order at the broker, with the run it comes from. -/
structure Order where
  run : ℕ
  week : ℤ
  symbol : String
  side : Side
  qty : ℤ
  filled : ℤ

/-- The marked weeks, the broker's orders, the number of runs, and the run in progress. -/
structure World where
  clock : ℤ
  marks : List ℤ
  orders : List Order
  runs : ℕ
  current : Option Running

inductive Event
  | start (i : Inputs)
  | place (o : Outcome)
  | look (positions : Option (List Position))
  | deadline
  | finish
  | crash
  | fill (k : ℕ) (qty : ℤ)

namespace World

variable (w : World)

/-- `weekly_guard`: the reason to skip, the marked week or a holiday. -/
def weeklyGuard (i : Inputs) : Bool := isoWeek i.day ∈ w.marks || i.holiday

def start (i : Inputs) : World :=
  if w.weeklyGuard i then { w with clock := i.day }
  else
    let p := buildPlan i.ranked i.positions
    { w with
      clock := i.day
      runs := w.runs + 1
      current := some ⟨isoWeek i.day, p, i.positions, items i p, [], [], true⟩ }

def place (r : Running) (o : Outcome) : World :=
  match r.todo with
  | [] => w
  | item :: todo =>
    { w with
      orders :=
        if o.arrives item then
          w.orders ++ [⟨w.runs, r.week, item.symbol, item.side, item.qty, 0⟩]
        else w.orders
      current := some { r with todo, placed := r.placed ++ [o.entry item] } }

/-- A poll of `confirm_fills`; a failed one changes nothing. -/
def look (r : Running) (positions : Option (List Position)) : World :=
  match positions with
  | none => w
  | some after =>
    let filled := moved r.before after r.placed
    { w with
      current := some { r with
        filled, looking := decide (filled.length < r.placed.countP Placed.accepted) } }

def finish (r : Running) : World :=
  { w with
    marks :=
      if completed r.plan r.placed r.filled ∧ r.week ∉ w.marks then w.marks ++ [r.week]
      else w.marks
    current := none }

/-- The broker fills some of an order. -/
def fill (k : ℕ) (qty : ℤ) : World :=
  { w with orders := w.orders.modify k fun o => { o with filled := o.filled + qty } }

/-- Runs come one after the other; what a run does next follows from how far it is. -/
def Enabled : Event → Prop
  | .start i => w.current.isNone ∧ w.clock ≤ i.day ∧ Weekday i.day
  | .place _ => ∃ r ∈ w.current, r.todo ≠ []
  | .look _ | .deadline => ∃ r ∈ w.current, r.todo = [] ∧ r.looking = true
  | .finish => ∃ r ∈ w.current, r.todo = [] ∧ r.looking = false
  | .crash => w.current.isSome
  | .fill k qty => ∃ o ∈ w.orders[k]?, 0 < qty ∧ o.filled + qty ≤ o.qty

def next (e : Event) : World :=
  match e, w.current with
  | .start i, _ => w.start i
  | .place o, some r => w.place r o
  | .look positions, some r => w.look r positions
  | .deadline, some r => { w with current := some { r with looking := false } }
  | .finish, some r => w.finish r
  | .crash, _ => { w with current := none }
  | .fill k qty, _ => w.fill k qty
  | _, none => w

/-- Before the first run, with the weeks marked so far. -/
def init (clock : ℤ) (marks : List ℤ) : World := ⟨clock, marks, [], 0, none⟩

end World

def system : System World Event := ⟨World.Enabled, World.next⟩

instance (w : World) (e : Event) : Decidable (system.Enabled w e) := by
  change Decidable (World.Enabled w e)
  unfold World.Enabled
  cases e <;> infer_instance

end QuantTrader.Weekly
