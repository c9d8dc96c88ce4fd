import Mathlib.Algebra.Order.Ring.Int
import QuantTrader.Python.Json
import QuantTrader.Streaming.Kiwoom
import QuantTrader.Transition.Run

/-! # The receive loop of the Kiwoom ingester

A text is decoded, and what it holds decides which field is read next and how. Two
handlers stand around the reading: the inner one skips an item on the errors of a missing
field or a bad number, the outer one connects again on the errors of a connection. An
error of neither kind leaves both and ends the process.
-/

namespace QuantTrader.Streaming.Receive

open Python Transition
open Kiwoom (Side)

/-- The exceptions of `abs(Decimal(v))`; one of decimal arithmetic is no `ValueError`. -/
inductive NumExn
  | typeError
  | valueError
  | arithmeticError
  deriving DecidableEq

def NumExn.toExn : NumExn → Exn
  | typeError => .typeError
  | valueError => .valueError
  | arithmeticError => .arithmeticError

/-- What is called on a text or a decoded value. `denotes` is the value of a JSON text and
`loads` is `json.loads`, which may also refuse such a text for its depth or its digits. -/
structure Library (δ : Type) where
  denotes : Text → Option Json
  loads : Text → Except Exn Json
  denotes_of_loads : ∀ {s v}, loads s = .ok v → denotes s = some v
  absDecimal : Json → Except NumExn δ
  int : Text → Option ℤ
  str : Json → Text

/-- The exceptions of `except (KeyError, ValueError, TypeError)`. -/
def skipped : Exn → Bool
  | .keyError | .valueError | .typeError => true
  | _ => false

/-- The exceptions of the handler that connects again; the errors of sockets and of HTTP are
among the runtime errors here. -/
def caught : Exn → Bool
  | .runtimeError => true
  | _ => false

/-- Whether a value can be the key of a dict. -/
def hashable : Json → Bool
  | .arr _ | .obj _ => false
  | _ => true

/-- `symbol.encode()`: a text without lone surrogates. -/
def encode : Json → Except Exn Text
  | .str s => if s.all fun c => c < 0xD800 || 0xDFFF < c then .ok s else .error .valueError
  | _ => .error .attributeError

/-- The values of `for item in data`. -/
def iterate : Json → Except Exn (List Json)
  | .arr items => .ok items
  | .obj fields => .ok (fields.map fun f => .str f.1)
  | .str s => .ok (s.map fun c => .str [c])
  | _ => .error .typeError

/-- `qty_raw.startswith("-")`, as the side. -/
def side : Json → Except Exn Side
  | .str s => .ok (if s.head? = some 45 then .ask else .bid)
  | _ => .error .attributeError

/-- `item.get("type") == REAL_TYPE_TRADE`. -/
def isTrade (item : Json) : Except Exn Bool := do
  return (← item.get "type" .null).isText (text Kiwoom.realTypeTrade)

/-- A tick before its number; times are seconds of the epoch. -/
structure Trade (δ : Type) where
  symbol : Json
  price : δ
  volume : δ
  side : Side
  tradeTs : ℤ

/-- What `to_tick` reads of an item before its first number. -/
structure Fields where
  qtyRaw : Json
  dt : ℤ
  symbol : Json
  priceRaw : Json

variable {δ : Type} (lib : Library δ) (midnight : ℤ)

namespace Library

/-- `abs(Decimal(v))`. -/
def decimal (v : Json) : Except Exn δ := (lib.absDecimal v).mapError NumExn.toExn

/-- `int(hhmmss[start:start + 2])`; a slice of a list is no number, of a dict no key. -/
def digits (start : ℕ) : Json → Except Exn ℤ
  | .str s => match lib.int ((s.drop start).take 2) with
    | some n => .ok n
    | none => .error .valueError
  | .obj _ => .error .keyError
  | _ => .error .typeError

/-- `_hhmmss_to_utc`, on a day with its midnight. -/
def hhmmssToUtc (hhmmss : Json) : Except Exn ℤ := do
  let h ← lib.digits 0 hhmmss
  let m ← lib.digits 2 hhmmss
  let s ← lib.digits 4 hhmmss
  if (0 ≤ h ∧ h < 24) ∧ (0 ≤ m ∧ m < 60) ∧ (0 ≤ s ∧ s < 60) then
    return midnight + 3600 * h + 60 * m + s
  else throw .valueError

def fields (item : Json) : Except Exn Fields := do
  let v ← item.subscript "values"
  let qtyRaw ← v.subscript "15"
  let dt ← lib.hhmmssToUtc midnight (← v.subscript "20")
  let symbol ← item.subscript "item"
  let priceRaw ← v.subscript "10"
  return ⟨qtyRaw, dt, symbol, priceRaw⟩

/-- The rest of `to_tick`, up to the number of the tick. -/
def tick (f : Fields) : Except Exn (Trade δ) := do
  let price ← lib.decimal f.priceRaw
  let volume ← lib.decimal f.qtyRaw
  let side ← side f.qtyRaw
  if hashable f.symbol then return ⟨f.symbol, price, volume, side, f.dt⟩
  else throw .typeError

def toTick (item : Json) : Except Exn (Trade δ) := do
  lib.tick (← lib.fields midnight item)

/-- The body of the loop over the items: the tick that is handed to the producer, if any. -/
def handle (item : Json) : Except Exn (Option (Trade δ)) := do
  if ← isTrade item then
    match lib.toTick midnight item with
    | .error e => if skipped e then return none else throw e
    | .ok t => (fun _ => some t) <$> encode t.symbol
  else return none

/-- The loop over the items: the ticks that are handed over, and what ends it early. -/
def items : List Json → List (Trade δ) × Option Exn
  | [] => ([], none)
  | item :: rest => match lib.handle midnight item with
    | .error e => ([], some e)
    | .ok t => (t.toList ++ (items rest).1, (items rest).2)

end Library

/-- What goes back to the server. -/
inductive Reply
  | echo
  | reg
  deriving DecidableEq

/-- One turn of the receive loop: what it does and the exception that it ends with. -/
structure Turn (δ : Type) where
  produced : List (Trade δ) := []
  reply : Option Reply := none
  forceToken : Bool := false
  raised : Option Exn := none

namespace Library

/-- A decoded message, by its `trnm`. -/
def dispatch (msg : Json) : Except Exn (Turn δ) := do
  let trnm ← msg.get "trnm" .null
  if trnm.isText (text "PING") then return { reply := some .echo }
  else if trnm.isText (text "LOGIN") then
    if lib.str (← msg.get "return_code" .null) ≠ text "0" then
      return { forceToken := true, raised := some .runtimeError }
    else return { reply := some .reg }
  else if !trnm.isText (text "REAL") then return {}
  else
    let data ← iterate (← msg.get "data" (.arr []))
    return { produced := (lib.items midnight data).1, raised := (lib.items midnight data).2 }

/-- One turn of the receive loop, for a text. -/
def receive (raw : Text) : Turn δ :=
  match lib.loads raw >>= lib.dispatch midnight with
  | .ok turn => turn
  | .error e => { raised := some e }

/-! ## What a message holds -/

/-- A trade that can be read and whose symbol can be sent. -/
def wellFormed (item : Json) : Option (Trade δ) :=
  match isTrade item, lib.toTick midnight item with
  | .ok true, .ok t => if (encode t.symbol).isOk then some t else none
  | _, _ => none

/-- The well-formed trades of a message, in order. -/
def trades (msg : Json) : List (Trade δ) :=
  match msg.get "trnm" .null, msg.get "data" (.arr []) >>= iterate with
  | .ok trnm, .ok data =>
    if trnm.isText (text "REAL") then data.filterMap (lib.wellFormed midnight) else []
  | _, _ => []

end Library

/-- A text does no harm: only caught exceptions are raised, and exactly the well-formed
trades of its message are handed over, each once. -/
def Tolerates (raw : Text) : Prop :=
  (∀ e ∈ (lib.receive midnight raw).raised, caught e) ∧
    (lib.receive midnight raw).produced = (lib.denotes raw).elim [] (lib.trades midnight)

/-- No number of the fields fails in decimal arithmetic; once both are read, the volume is a
text, and a symbol that can be a key can be sent. -/
def Fine (f : Fields) : Prop :=
  lib.absDecimal f.priceRaw ≠ .error .arithmeticError ∧
    ∀ p, lib.absDecimal f.priceRaw = .ok p →
      lib.absDecimal f.qtyRaw ≠ .error .arithmeticError ∧
        ∀ q, lib.absDecimal f.qtyRaw = .ok q →
          f.qtyRaw.isStr ∧ (hashable f.symbol → (encode f.symbol).isOk)

/-- An object, with fine fields where it is a trade with all of them. -/
def HarmlessItem (item : Json) : Prop :=
  ∃ trade, isTrade item = .ok trade ∧
    (trade → ∀ f, lib.fields midnight item = .ok f → Fine lib f)

/-- An object, whose data are a list of harmless items if it is a `REAL` message. -/
def HarmlessMessage (msg : Json) : Prop :=
  ∃ trnm, msg.get "trnm" .null = .ok trnm ∧ (trnm.isText (text "REAL") →
    ∃ data, (msg.get "data" (.arr []) >>= iterate) = .ok data ∧
      ∀ item ∈ data, HarmlessItem lib midnight item)

/-- A text of a harmless message, or one that is refused with a caught exception and has no
well-formed trade. -/
def Harmless (raw : Text) : Prop :=
  match lib.loads raw with
  | .ok msg => HarmlessMessage lib midnight msg
  | .error e => caught e ∧ (lib.denotes raw).elim [] (lib.trades midnight) = []

variable {lib} {midnight} {item msg v : Json} {f : Fields} {e : Exn} {t : Trade δ}

/-! ## Reading an item -/

theorem skipped_of_subscript {key : String} (h : v.subscript key = .error e) : skipped e := by
  cases v with
  | obj fields =>
    simp only [Json.subscript] at h
    split at h
    · cases h
    · obtain rfl := Except.error.inj h
      rfl
  | _ =>
    obtain rfl := Except.error.inj h
    rfl

theorem skipped_of_digits {start : ℕ} (h : lib.digits start v = .error e) : skipped e := by
  cases v with
  | str s =>
    simp only [Library.digits] at h
    split at h
    · cases h
    · obtain rfl := Except.error.inj h
      rfl
  | _ =>
    obtain rfl := Except.error.inj h
    rfl

theorem skipped_of_hhmmssToUtc (h : lib.hhmmssToUtc midnight v = .error e) : skipped e := by
  unfold Library.hhmmssToUtc at h
  rcases bind_error_iff.mp h with h | ⟨a, -, h⟩
  · exact skipped_of_digits h
  rcases bind_error_iff.mp h with h | ⟨b, -, h⟩
  · exact skipped_of_digits h
  rcases bind_error_iff.mp h with h | ⟨c, -, h⟩
  · exact skipped_of_digits h
  split_ifs at h
  · cases h
  · obtain rfl := Except.error.inj h
    rfl

/-- Before the first number an item fails only with exceptions that are skipped. -/
theorem skipped_of_fields (h : lib.fields midnight item = .error e) : skipped e := by
  unfold Library.fields at h
  rcases bind_error_iff.mp h with h | ⟨v, -, h⟩
  · exact skipped_of_subscript h
  rcases bind_error_iff.mp h with h | ⟨qtyRaw, -, h⟩
  · exact skipped_of_subscript h
  rcases bind_error_iff.mp h with h | ⟨hhmmss, -, h⟩
  · exact skipped_of_subscript h
  rcases bind_error_iff.mp h with h | ⟨dt, -, h⟩
  · exact skipped_of_hhmmssToUtc h
  rcases bind_error_iff.mp h with h | ⟨symbol, -, h⟩
  · exact skipped_of_subscript h
  rcases bind_error_iff.mp h with h | ⟨priceRaw, -, h⟩
  · exact skipped_of_subscript h
  · cases h

/-- Fields are fine when what they give is skipped or can be sent. -/
theorem fine_iff : Fine lib f ↔ (∃ e, lib.tick f = .error e ∧ skipped e) ∨
    ∃ t, lib.tick f = .ok t ∧ (encode t.symbol).isOk := by
  unfold Fine Library.tick Library.decimal
  cases lib.absDecimal f.priceRaw with
  | error e => cases e <;> simp [Except.mapError, bind, Except.bind, NumExn.toExn, skipped]
  | ok p =>
    cases lib.absDecimal f.qtyRaw with
    | error e => cases e <;> simp [Except.mapError, bind, Except.bind, NumExn.toExn, skipped]
    | ok q =>
      cases hq : f.qtyRaw with
      | str s =>
        by_cases hh : hashable f.symbol
        · simp [Except.mapError, bind, Except.bind, pure, Except.pure, side, Json.isStr, hh]
        · simp [Except.mapError, bind, Except.bind, throw, throwThe, MonadExceptOf.throw, side,
            Json.isStr, hh, skipped]
      | _ => simp [Except.mapError, bind, Except.bind, side, skipped, Json.isStr]

theorem not_caught_of_decimal (h : lib.decimal v = .error e) : caught e = false := by
  unfold Library.decimal at h
  cases hd : lib.absDecimal v with
  | error n =>
    rw [hd] at h
    obtain rfl := Except.error.inj h
    cases n <;> rfl
  | ok x =>
    rw [hd] at h
    cases h

theorem not_caught_of_tick (h : lib.tick f = .error e) : caught e = false := by
  unfold Library.tick at h
  rcases bind_error_iff.mp h with h | ⟨price, -, h⟩
  · exact not_caught_of_decimal h
  rcases bind_error_iff.mp h with h | ⟨volume, -, h⟩
  · exact not_caught_of_decimal h
  rcases bind_error_iff.mp h with h | ⟨s, -, h⟩
  · cases hq : f.qtyRaw with
    | str s =>
      rw [hq] at h
      cases h
    | _ =>
      rw [hq] at h
      obtain rfl := Except.error.inj h
      rfl
  · split_ifs at h
    · cases h
    · obtain rfl := Except.error.inj h
      rfl

theorem not_caught_of_encode (h : encode v = .error e) : caught e = false := by
  cases v with
  | str s =>
    simp only [encode] at h
    split_ifs at h
    obtain rfl := Except.error.inj h
    rfl
  | _ =>
    obtain rfl := Except.error.inj h
    rfl

theorem not_caught_of_get {key : String} {d : Json} (h : v.get key d = .error e) :
    caught e = false := by
  cases v with
  | obj fields => cases h
  | _ =>
    obtain rfl := Except.error.inj h
    rfl

theorem not_caught_of_isTrade (h : isTrade item = .error e) : caught e = false := by
  rcases bind_error_iff.mp h with h | ⟨type, -, h⟩
  · exact not_caught_of_get h
  · cases h

theorem toTick_eq (h : lib.fields midnight item = .ok f) :
    lib.toTick midnight item = lib.tick f := by
  rw [Library.toTick, h]
  rfl

theorem handle_of_trade (h : isTrade item = .ok true) : lib.handle midnight item =
    match lib.toTick midnight item with
    | .error e => if skipped e then .ok none else .error e
    | .ok t => (fun _ => some t) <$> encode t.symbol := by
  rw [Library.handle, h]
  rfl

theorem handle_fields (hi : isTrade item = .ok true) (hf : lib.fields midnight item = .ok f) :
    (Fine lib f ∧ lib.handle midnight item = .ok (lib.wellFormed midnight item)) ∨
    (¬ Fine lib f ∧ ∃ e, lib.handle midnight item = .error e ∧ caught e = false) := by
  rw [handle_of_trade hi, Library.wellFormed, hi, toTick_eq hf]
  cases ht : lib.tick f with
  | error e =>
    by_cases hs : skipped e
    · exact .inl ⟨fine_iff.mpr (.inl ⟨e, ht, hs⟩), if_pos hs⟩
    · refine .inr ⟨fun hfine => ?_, e, if_neg hs, not_caught_of_tick ht⟩
      rcases fine_iff.mp hfine with ⟨e', he, hs'⟩ | ⟨t, htick, -⟩
      · obtain rfl := Except.error.inj (ht.symm.trans he)
        exact hs hs'
      · cases ht.symm.trans htick
  | ok t =>
    cases he : encode t.symbol with
    | ok key =>
      refine .inl ⟨fine_iff.mpr (.inr ⟨t, ht, by rw [he]; rfl⟩), ?_⟩
      simp [he, Except.isOk, Except.toBool]
    | error e =>
      refine .inr ⟨fun hfine => ?_, e, by simp [he], not_caught_of_encode he⟩
      rcases fine_iff.mp hfine with ⟨e', he', -⟩ | ⟨t', htick, hok⟩
      · cases ht.symm.trans he'
      · obtain rfl := Except.ok.inj (ht.symm.trans htick)
        rw [he] at hok
        cases hok

/-- An item is handled when it is harmless, and only its well-formed trade is handed over. -/
theorem handle_cases (lib : Library δ) (midnight : ℤ) (item : Json) :
    (HarmlessItem lib midnight item ∧
      lib.handle midnight item = .ok (lib.wellFormed midnight item)) ∨
    (¬ HarmlessItem lib midnight item ∧
      ∃ e, lib.handle midnight item = .error e ∧ caught e = false) := by
  cases hi : isTrade item with
  | error e =>
    refine .inr ⟨?_, e, by rw [Library.handle, hi]; rfl, not_caught_of_isTrade hi⟩
    rintro ⟨trade, htrade, -⟩
    cases hi.symm.trans htrade
  | ok trade =>
    cases trade with
    | false =>
      refine .inl ⟨⟨false, hi, by rintro ⟨⟩⟩, ?_⟩
      rw [Library.handle, Library.wellFormed, hi]
      rfl
    | true =>
      cases hf : lib.fields midnight item with
      | error e =>
        have htick : lib.toTick midnight item = .error e := by
          rw [Library.toTick, hf]
          rfl
        refine .inl ⟨⟨true, hi, fun _ f hf' => by cases hf.symm.trans hf'⟩, ?_⟩
        rw [handle_of_trade hi, Library.wellFormed, hi, htick]
        exact if_pos (skipped_of_fields hf)
      | ok f =>
        have hiff : HarmlessItem lib midnight item ↔ Fine lib f := by
          constructor
          · rintro ⟨trade, htrade, h⟩
            obtain rfl := Except.ok.inj (hi.symm.trans htrade)
            exact h rfl f hf
          · rintro h
            refine ⟨true, hi, fun _ f' hf' => ?_⟩
            obtain rfl := Except.ok.inj (hf.symm.trans hf')
            exact h
        rw [hiff]
        exact handle_fields hi hf

/-! ## Reading a message -/

/-- The loop ends early exactly at an item that does harm, and then with an exception that is
not caught; else every well-formed trade has been handed over. -/
theorem items_cases (lib : Library δ) (midnight : ℤ) (data : List Json) :
    ((∀ item ∈ data, HarmlessItem lib midnight item) ∧
      lib.items midnight data = (data.filterMap (lib.wellFormed midnight), none)) ∨
    (¬ (∀ item ∈ data, HarmlessItem lib midnight item) ∧
      ∃ e, (lib.items midnight data).2 = some e ∧ caught e = false) := by
  induction data with
  | nil => exact .inl ⟨by simp, rfl⟩
  | cons item data ih =>
    rcases handle_cases lib midnight item with ⟨hitem, hhandle⟩ | ⟨hitem, e, hhandle, he⟩
    · have hitems : lib.items midnight (item :: data) =
          ((lib.wellFormed midnight item).toList ++ (lib.items midnight data).1,
            (lib.items midnight data).2) := by
        rw [Library.items, hhandle]
      rcases ih with ⟨hall, hloop⟩ | ⟨hall, e, hloop, he⟩
      · refine .inl ⟨List.forall_mem_cons.mpr ⟨hitem, hall⟩, ?_⟩
        rw [hitems, hloop]
        cases hw : lib.wellFormed midnight item <;> simp [hw]
      · refine .inr ⟨fun h => hall (List.forall_mem_cons.mp h).2, e, ?_, he⟩
        rw [hitems, hloop]
    · refine .inr ⟨fun h => hitem (List.forall_mem_cons.mp h).1, e, ?_, he⟩
      rw [Library.items, hhandle]

theorem exists_get {key : String} {d w : Json} (h : msg.get key d = .ok w) (key' : String)
    (d' : Json) : ∃ w', msg.get key' d' = .ok w' := by
  cases msg with
  | obj fields => exact ⟨_, rfl⟩
  | _ => cases h

/-- A message of another kind hands nothing over, and raises nothing but the exception of a
login that failed. -/
theorem dispatch_other (lib : Library δ) (midnight : ℤ) {trnm : Json}
    (h : msg.get "trnm" .null = .ok trnm)
    (hreal : trnm.isText (text "REAL") = false) : ∃ turn, lib.dispatch midnight msg = .ok turn ∧
      turn.produced = [] ∧ ∀ e ∈ turn.raised, caught e := by
  obtain ⟨code, hcode⟩ := exists_get h "return_code" .null
  rw [Library.dispatch, h, hcode]
  simp only [bind, Except.bind, hreal, Bool.not_false, if_true]
  split_ifs
  · exact ⟨_, rfl, rfl, by rintro e ⟨⟩⟩
  · exact ⟨_, rfl, rfl, by rintro e ⟨⟩; rfl⟩
  · exact ⟨_, rfl, rfl, by rintro e ⟨⟩⟩
  · exact ⟨_, rfl, rfl, by rintro e ⟨⟩⟩

theorem isText_eq_false {s t : Text} (h : v.isText s) (hne : s ≠ t) : v.isText t = false := by
  cases v with
  | str u =>
    obtain rfl : u = s := of_decide_eq_true h
    exact decide_eq_false hne
  | _ => rfl

theorem dispatch_real (lib : Library δ) (midnight : ℤ) {trnm : Json}
    (h : msg.get "trnm" .null = .ok trnm)
    (hreal : trnm.isText (text "REAL")) : lib.dispatch midnight msg =
      match msg.get "data" (.arr []) >>= iterate with
      | .ok data => .ok
          { produced := (lib.items midnight data).1, raised := (lib.items midnight data).2 }
      | .error e => .error e := by
  have hping := isText_eq_false hreal (t := text "PING") (by decide)
  have hlogin := isText_eq_false hreal (t := text "LOGIN") (by decide)
  rw [Library.dispatch, h]
  simp only [bind, Except.bind, hping, hlogin, hreal, Bool.not_true, Bool.false_eq_true, if_false]
  cases msg.get "data" (.arr []) with
  | error e => rfl
  | ok data =>
    cases hdata : iterate data with
    | error e => simp only [hdata]
    | ok items =>
      simp only [hdata]
      rfl

theorem not_caught_of_iterate (h : iterate v = .error e) : caught e = false := by
  cases v with
  | arr items => cases h
  | obj fields => cases h
  | str s => cases h
  | _ =>
    obtain rfl := Except.error.inj h
    rfl

theorem not_caught_of_data (h : (msg.get "data" (.arr []) >>= iterate) = .error e) :
    caught e = false := by
  rcases bind_error_iff.mp h with h | ⟨data, -, h⟩
  · exact not_caught_of_get h
  · exact not_caught_of_iterate h

theorem harmless_iff_items {trnm : Json} {data : List Json}
    (h : msg.get "trnm" .null = .ok trnm) (hreal : trnm.isText (text "REAL"))
    (hdata : (msg.get "data" (.arr []) >>= iterate) = .ok data) :
    HarmlessMessage lib midnight msg ↔ ∀ item ∈ data, HarmlessItem lib midnight item := by
  constructor
  · rintro ⟨trnm', htrnm, hitems⟩
    obtain rfl := Except.ok.inj (h.symm.trans htrnm)
    obtain ⟨data', hok, hall⟩ := hitems hreal
    obtain rfl := Except.ok.inj (hdata.symm.trans hok)
    exact hall
  · rintro hall
    exact ⟨trnm, h, fun _ => ⟨data, hdata, hall⟩⟩

/-- What a turn does with a message: it is harmless and its well-formed trades are handed over,
or an exception that is not caught ends the turn. -/
theorem dispatch_cases (lib : Library δ) (midnight : ℤ) (msg : Json) :
    (HarmlessMessage lib midnight msg ∧ ∃ turn, lib.dispatch midnight msg = .ok turn ∧
      turn.produced = lib.trades midnight msg ∧ ∀ e ∈ turn.raised, caught e) ∨
    (¬ HarmlessMessage lib midnight msg ∧ ∃ e, caught e = false ∧
      (lib.dispatch midnight msg = .error e ∨
        ∃ turn, lib.dispatch midnight msg = .ok turn ∧ turn.raised = some e)) := by
  cases h : msg.get "trnm" .null with
  | error e =>
    refine .inr ⟨?_, e, not_caught_of_get h, .inl (by rw [Library.dispatch, h]; rfl)⟩
    rintro ⟨trnm, htrnm, -⟩
    cases h.symm.trans htrnm
  | ok trnm =>
    cases hreal : trnm.isText (text "REAL") with
    | false =>
      obtain ⟨turn, hturn, hproduced, hraised⟩ := dispatch_other lib midnight h hreal
      refine .inl ⟨⟨trnm, h, by rw [hreal]; rintro ⟨⟩⟩, turn, hturn, ?_, hraised⟩
      rw [hproduced, Library.trades, h]
      cases msg.get "data" (.arr []) >>= iterate <;> simp [hreal]
    | true =>
      have hdispatch := dispatch_real lib midnight h hreal
      cases hdata : msg.get "data" (.arr []) >>= iterate with
      | error e =>
        rw [hdata] at hdispatch
        refine .inr ⟨?_, e, not_caught_of_data hdata, .inl hdispatch⟩
        rintro ⟨trnm', htrnm, hitems⟩
        obtain rfl := Except.ok.inj (h.symm.trans htrnm)
        obtain ⟨data, hok, -⟩ := hitems hreal
        cases hdata.symm.trans hok
      | ok data =>
        rw [hdata] at hdispatch
        have htrades : lib.trades midnight msg = data.filterMap (lib.wellFormed midnight) := by
          rw [Library.trades, h, hdata]
          exact if_pos hreal
        rw [harmless_iff_items h hreal hdata, htrades]
        rcases items_cases lib midnight data with ⟨hall, hloop⟩ | ⟨hall, e, hloop, he⟩
        · refine .inl ⟨hall, _, hdispatch, by rw [hloop], ?_⟩
          rw [hloop]
          rintro e ⟨⟩
        · exact .inr ⟨hall, e, he, .inr ⟨_, hdispatch, hloop⟩⟩

/-- A text does no harm exactly when it is harmless. -/
theorem receive_tolerates_iff (lib : Library δ) (midnight : ℤ) (raw : Text) :
    Tolerates lib midnight raw ↔ Harmless lib midnight raw := by
  unfold Tolerates Harmless Library.receive
  cases hload : lib.loads raw with
  | error e =>
    simp only [bind, Except.bind, Option.mem_some_iff, forall_eq']
    exact and_congr_right fun _ => eq_comm
  | ok msg =>
    rw [lib.denotes_of_loads hload, Option.elim_some]
    simp only [bind, Except.bind]
    rcases dispatch_cases lib midnight msg with
      ⟨hmsg, turn, hturn, hproduced, hraised⟩ | ⟨hmsg, e, he, hend | ⟨turn, hturn, hraised⟩⟩
    · rw [hturn]
      exact iff_of_true ⟨hraised, hproduced⟩ hmsg
    · rw [hend]
      refine iff_of_false (fun h => ?_) hmsg
      exact Bool.false_ne_true (he.symm.trans (h.1 e rfl))
    · rw [hturn]
      refine iff_of_false (fun h => ?_) hmsg
      exact Bool.false_ne_true (he.symm.trans (h.1 e hraised))

/-! ## Turn after turn -/

/-- The turns of a process, over its connections: it ends with an exception that is not
caught. -/
def run (lib : Library δ) : List (ℤ × Text) → List (Trade δ) × Option Exn
  | [] => ([], none)
  | (midnight, raw) :: rest =>
    let turn := lib.receive midnight raw
    match turn.raised.filter fun e => !caught e with
    | some e => (turn.produced, some e)
    | none => (turn.produced ++ (run lib rest).1, (run lib rest).2)

/-- While every text does no harm the process goes on, and hands over the well-formed trades of
all of them. -/
theorem run_of_tolerates {raws : List (ℤ × Text)} (h : ∀ p ∈ raws, Tolerates lib p.1 p.2) :
    run lib raws = (raws.flatMap fun p => (lib.denotes p.2).elim [] (lib.trades p.1), none) := by
  induction raws with
  | nil => rfl
  | cons p raws ih =>
    obtain ⟨hp, hraws⟩ := List.forall_mem_cons.mp h
    have hnone : (lib.receive p.1 p.2).raised.filter (fun e => !caught e) = none := by
      rw [Option.filter_eq_none_iff]
      rintro e he
      rw [hp.1 e he]
      decide
    rw [run, ih hraws]
    simp only [hnone, hp.2, List.flatMap_cons]

/-! ## Items of texts -/

def ofPyError : TickSink.PyError → Exn
  | .keyError => .keyError
  | .valueError => .valueError
  | .typeError => .typeError
  | .other => .arithmeticError

/-- The numbers of a text are the same ones. -/
structure Agrees (lib : Library ℚ) (py : Kiwoom.Python) : Prop where
  decimal : ∀ s, lib.decimal (.str (text s)) =
    (fun x => |x|) <$> (py.decimal s).mapError ofPyError
  digits : ∀ s n, lib.digits n (.str (text s)) = (Kiwoom.digits py s n).mapError ofPyError

def textField (key : String) (s : Option String) : List (Text × Json) :=
  s.toList.map fun s => (text key, .str (text s))

def ofValues (v : String → Option String) : Json :=
  .obj (textField "10" (v "10") ++ textField "15" (v "15") ++ textField "20" (v "20"))

def ofItem (i : Kiwoom.Item) : Json :=
  .obj (textField "type" i.type ++ textField "item" i.item ++
    i.values.toList.map fun v => (text "values", ofValues v))

def ofTrade (t : Kiwoom.Trade) : Trade ℚ :=
  ⟨.str (text t.symbol), t.price, t.volume, t.side, t.tradeTs⟩

theorem subscript_ofItem_values (i : Kiwoom.Item) : (ofItem i).subscript "values" =
    ofValues <$> (Kiwoom.get i.values).mapError ofPyError := by
  obtain ⟨type, item, values⟩ := i
  cases type <;> cases item <;> cases values <;> rfl

theorem subscript_ofItem_item (i : Kiwoom.Item) : (ofItem i).subscript "item" =
    (fun s => .str (text s)) <$> (Kiwoom.get i.item).mapError ofPyError := by
  obtain ⟨type, item, values⟩ := i
  cases type <;> cases item <;> cases values <;> rfl

theorem subscript_ofValues {v : String → Option String} {key : String}
    (hkey : key = "10" ∨ key = "15" ∨ key = "20") : (ofValues v).subscript key =
      (fun s => .str (text s)) <$> (Kiwoom.get (v key)).mapError ofPyError := by
  unfold ofValues
  cases h10 : v "10" <;> cases h15 : v "15" <;> cases h20 : v "20" <;>
    rcases hkey with rfl | rfl | rfl <;> simp only [h10, h15, h20] <;> rfl

theorem side_text (s : String) : side (.str (text s)) =
    .ok (if s.toList.head? = some '-' then .ask else .bid) := by
  have hminus : (text s).head? = some 45 ↔ s.toList.head? = some '-' := by
    rw [text, List.head?_map]
    cases s.toList.head? with
    | none => simp
    | some c =>
      have hc : c.toNat = 45 ↔ c = '-' := Char.toNat_inj (d := '-')
      simp [hc]
  simp only [side, hminus]

theorem hhmmssToUtc_text {lib : Library ℚ} {py : Kiwoom.Python} (h : Agrees lib py)
    (midnight : ℤ) (s : String) : lib.hhmmssToUtc midnight (.str (text s)) =
      (Kiwoom.hhmmssToUtc py midnight s).mapError ofPyError := by
  unfold Library.hhmmssToUtc Kiwoom.hhmmssToUtc
  simp only [h.digits]
  cases Kiwoom.digits py s 0 with
  | error e => rfl
  | ok hh =>
    cases Kiwoom.digits py s 2 with
    | error e => rfl
    | ok mm =>
      cases Kiwoom.digits py s 4 with
      | error e => rfl
      | ok ss =>
        simp only [Except.mapError, bind, Except.bind]
        split_ifs <;> rfl

theorem toTick_ofItem {lib : Library ℚ} {py : Kiwoom.Python} (h : Agrees lib py) (midnight : ℤ)
    (i : Kiwoom.Item) : lib.toTick midnight (ofItem i) =
      ofTrade <$> (Kiwoom.trade py midnight i).mapError ofPyError := by
  unfold Library.toTick Library.fields Kiwoom.trade
  rw [subscript_ofItem_values, subscript_ofItem_item]
  cases Kiwoom.get i.values with
  | error e => rfl
  | ok v =>
    simp only [Except.mapError, Functor.map, Except.map, bind, Except.bind,
      subscript_ofValues (.inl rfl), subscript_ofValues (.inr (.inl rfl)),
      subscript_ofValues (.inr (.inr rfl))]
    cases Kiwoom.get (v "15") with
    | error e => rfl
    | ok qtyRaw =>
      cases Kiwoom.get (v "20") with
      | error e => rfl
      | ok hhmmss =>
        simp only [hhmmssToUtc_text h]
        cases Kiwoom.hhmmssToUtc py midnight hhmmss with
        | error e => rfl
        | ok dt =>
          cases Kiwoom.get i.item with
          | error e => rfl
          | ok symbol =>
            cases Kiwoom.get (v "10") with
            | error e => rfl
            | ok priceRaw =>
              simp only [pure, Except.pure, Except.mapError, Library.tick, h.decimal, side_text,
                bind, Except.bind]
              cases py.decimal priceRaw with
              | error e => rfl
              | ok price =>
                cases py.decimal qtyRaw with
                | error e => rfl
                | ok volume => rfl

/-! ## A price that is no number -/

/-- Whole numbers, with a sign before those that are amounts. -/
def demoDecimal : Json → Except NumExn ℚ
  | .str s => match Kiwoom.natural (String.ofList ((s.dropWhile (· = 43)).map Char.ofNat)) with
    | .ok n => .ok n
    | .error _ => .error .arithmeticError
  | .int n => .ok |(n : ℚ)|
  | _ => .error .typeError

def demoItem (price : String) : Json :=
  .obj [(text "type", .str (text "0B")), (text "item", .str (text "005930")),
    (text "values", .obj [(text "20", .str (text "090000")), (text "15", .str (text "+7")),
      (text "10", .str (text price))])]

def demoText : Text := text <|
  "\x7b\"trnm\":\"REAL\",\"data\":[" ++
  "\x7b\"type\":\"0B\",\"item\":\"005930\"," ++
  "\"values\":\x7b\"20\":\"090000\",\"15\":\"+7\",\"10\":\"abc\"\x7d\x7d," ++
  "\x7b\"type\":\"0B\",\"item\":\"005930\"," ++
  "\"values\":\x7b\"20\":\"090000\",\"15\":\"+7\",\"10\":\"70000\"\x7d\x7d]\x7d"

def demoMessage : Json :=
  .obj [(text "trnm", .str (text "REAL")), (text "data", .arr [demoItem "abc", demoItem "70000"])]

/-- Decodes `demoText`, and takes every other text for no JSON. -/
def demoLibrary : Library ℚ where
  denotes s := if s = demoText then some demoMessage else none
  loads s := if s = demoText then .ok demoMessage else .error .valueError
  denotes_of_loads {s v} h := by
    split_ifs at h ⊢
    exact congrArg some (Except.ok.inj h)
  absDecimal := demoDecimal
  int s := ((Kiwoom.natural (String.ofList (s.map Char.ofNat))).map fun n => (n : ℤ)).toOption
  str _ := text "None"

/-- The first price ends the process before the second trade is handed over. -/
theorem not_tolerates_demo : ¬ Tolerates demoLibrary 0 demoText := by
  intro h
  have hraised : (demoLibrary.receive 0 demoText).raised = some .arithmeticError := by
    decide +kernel
  cases h.1 _ hraised

end QuantTrader.Streaming.Receive
