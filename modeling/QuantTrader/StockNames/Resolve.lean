import Mathlib.Data.List.DropRight
import Mathlib.Data.List.Infix
import QuantTrader.Python.Json

/-! # Resolving a query to a stock

A query is tried as an alias, as an exact symbol or name, as the beginning and then a
part of exactly one name, and last as a code of its own. A code that the index has is
found as itself; one that it does not have is taken for a name before it is taken for
a code.
-/

namespace QuantTrader.StockNames

open Python

/-- What Python knows of the characters, with two facts of its tables: upper case is
stable, and only the digits themselves have digits as their upper case. -/
structure Unicode where
  upper : Text → Text
  lower : Text → Text
  isSpace : ℕ → Bool
  isDigit : ℕ → Bool
  upper_upper : ∀ s, upper (upper s) = upper s
  eq_of_upper : ∀ {s t : Text}, (t.all isDigit) → upper s = upper t → s = t

namespace Unicode

variable (u : Unicode)

/-- `s.strip()`. -/
def strip (s : Text) : Text := (s.dropWhile u.isSpace).rdropWhile u.isSpace

/-- `_norm` -/
def norm (s : Text) : Text := u.lower (s.filter fun c => !u.isSpace c)

/-- `_KR_CODE`, of a text without space around it. -/
def krCode (s : Text) : Bool := s.length = 6 && s.all u.isDigit

end Unicode

def isLetter (c : ℕ) : Bool := (65 ≤ c && c ≤ 90) || (97 ≤ c && c ≤ 122)

/-- `_US_TICKER`, of a text without space around it. -/
def usTicker : Text → Bool
  | [] => false
  | c :: s => isLetter c && s.length ≤ 9 &&
    s.all fun c => isLetter c || (48 ≤ c && c ≤ 57) || c = 46 || c = 45

/-- `_ALIASES` -/
def aliases : List (Text × Text) :=
  [("네이버", "035420"), ("엔씨소프트", "036570"), ("엔씨", "036570"), ("ncsoft", "036570"),
    ("삼성", "005930"), ("samsung", "005930"), ("sk하이닉스", "000660"), ("하이닉스", "000660"),
    ("hynix", "000660"), ("카카오", "035720"), ("kakao", "035720"), ("카카오뱅크", "323410"),
    ("카뱅", "323410"), ("현대차", "005380"), ("현대자동차", "005380"), ("hyundai", "005380"),
    ("포스코", "005490"), ("posco", "005490"), ("엘지에너지솔루션", "373220"),
    ("lg에너지솔루션", "373220"), ("기아", "000270"), ("kia", "000270")].map
    fun p => (text p.1, text p.2)

/-- A stock of the index. -/
structure Row where
  market : String
  symbol : Text
  name : Text
  deriving DecidableEq

/-- The names by market. -/
abbrev Names := List (String × List (Text × Text))

variable (u : Unicode) (index : List Row)

/-- `build_index` -/
def buildIndex (names : Names) : List Row :=
  names.flatMap fun p => p.2.map fun s =>
    ⟨p.1, if p.1 = "US" then u.upper s.1 else s.1, s.2⟩

/-- The first stock of a market with the symbol `up`, in upper case. -/
def bySymbol (up : Text) (market : String) : Option Row :=
  index.find? fun r => r.market = market ∧ u.upper r.symbol = up

def byName (nq : Text) (market : String) : Option Row :=
  index.find? fun r => r.market = market ∧ u.norm r.name = nq

def sole {α : Type} : List α → Option α
  | [a] => some a
  | _ => none

/-- The only stock of a market whose name meets the test. -/
def similar (pred : Text → Bool) (market : String) : Option Row :=
  sole (index.filter fun r => r.market = market ∧ pred (u.norm r.name))

/-- The only name that begins with `nq`, then the only one that has it. -/
def unique (nq : Text) : Option Row :=
  ((similar u index (fun n => nq <+: n) "KR").or (similar u index (fun n => nq <+: n) "US")).or
    ((similar u index (fun n => nq <:+: n) "KR").or
      (similar u index (fun n => nq <:+: n) "US"))

/-- A row made of the query, when it looks like a code. -/
def direct (q : Text) : Option Row :=
  if u.krCode q then some ⟨"KR", q, q⟩
  else if usTicker q then some ⟨"US", u.upper q, u.upper q⟩
  else none

/-- `resolve` -/
def resolve (q : Text) : Option Row :=
  let q := u.strip q
  if q = [] then none
  else
    let up := u.upper q
    let nq := u.norm q
    match aliases.lookup nq with
    | some code => some ((index.find? fun r => r.market = "KR" ∧ r.symbol = code).getD
        ⟨"KR", code, q⟩)
    | none =>
      ((bySymbol u index up "KR").or (byName u index nq "KR")).or <|
        ((bySymbol u index up "US").or (byName u index nq "US")).or <|
          (unique u index nq).or (direct u q)

/-- The index has the query as a symbol. -/
def Indexed (q : Text) : Prop :=
  ∃ r ∈ index, (r.market = "KR" ∨ r.market = "US") ∧ u.upper r.symbol = u.upper q

/-- A stock stands for the query itself: the same symbol but for case, in upper case for
`US`, and the very same one for a code of digits. -/
structure Stands (q : Text) (r : Row) : Prop where
  upper : u.upper r.symbol = u.upper q
  us : r.market = "US" → r.symbol = u.upper q
  kr : u.krCode q → r.symbol = q

variable {u index} {names : Names} {q up nq : Text} {market : String} {r : Row}

theorem bySymbol_some (h : bySymbol u index up market = some r) :
    r ∈ index ∧ r.market = market ∧ u.upper r.symbol = up := by
  unfold bySymbol at h
  exact ⟨List.mem_of_find?_eq_some h, by simpa using List.find?_some h⟩

theorem bySymbol_none (h : bySymbol u index up market = none) :
    ∀ r ∈ index, r.market = market → u.upper r.symbol ≠ up := by
  rintro r hr hm hup
  exact List.find?_eq_none.mp h r hr (decide_eq_true ⟨hm, hup⟩)

theorem byName_eq_none (h : ∀ r ∈ index, u.norm r.name ≠ nq) : byName u index nq market = none := by
  refine List.find?_eq_none.mpr ?_
  rintro r hr hp
  exact h r hr (of_decide_eq_true hp).2

theorem upper_symbol (hr : r ∈ buildIndex u names) (hm : r.market = "US") :
    u.upper r.symbol = r.symbol := by
  obtain ⟨p, -, hp⟩ := List.mem_flatMap.mp hr
  obtain ⟨s, -, rfl⟩ := List.mem_map.mp hp
  have hus : p.1 = "US" := hm
  simp only [hus, if_true, u.upper_upper]

theorem Stands.of_symbol (hr : r ∈ buildIndex u names) (h : u.upper r.symbol = u.upper q) :
    Stands u q r where
  upper := h
  us hm := by rw [← upper_symbol hr hm, h]
  kr hk := u.eq_of_upper (Bool.and_eq_true_iff.mp hk).2 h

/-- A query that looks like a code has a row of its own. -/
theorem exists_direct (h : u.krCode q ∨ usTicker q) : ∃ r, direct u q = some r ∧ Stands u q r := by
  unfold direct
  split_ifs with hk ht
  · exact ⟨_, rfl, rfl, by simp, fun _ => rfl⟩
  · exact ⟨_, rfl, u.upper_upper q, fun _ => rfl, fun hk' => absurd hk' hk⟩
  · exact absurd h (not_or.mpr ⟨hk, ht⟩)

theorem ne_nil_of_code (h : u.krCode q ∨ usTicker q) : q ≠ [] := by
  rintro rfl
  rcases h with h | h <;> cases h

/-- Without an alias and a name, a query is looked up as a symbol, as a part of one name
and as a code. -/
theorem resolve_eq (hq : u.strip q ≠ []) (halias : aliases.lookup (u.norm (u.strip q)) = none)
    (hname : ∀ r ∈ index, u.norm r.name ≠ u.norm (u.strip q)) :
    resolve u index q =
      (bySymbol u index (u.upper (u.strip q)) "KR").or
        ((bySymbol u index (u.upper (u.strip q)) "US").or
          ((unique u index (u.norm (u.strip q))).or (direct u (u.strip q)))) := by
  simp only [resolve, hq, if_false, halias, byName_eq_none hname, Option.or_none]

/-- A query that looks like a code, and is no alias and no name, is found as itself when the
index has it or no name is the only one with it; else that only one is found. -/
theorem resolve_code (u : Unicode) (names : Names) (q : Text)
    (hcode : u.krCode (u.strip q) ∨ usTicker (u.strip q))
    (halias : aliases.lookup (u.norm (u.strip q)) = none)
    (hname : ∀ r ∈ buildIndex u names, u.norm r.name ≠ u.norm (u.strip q)) :
    ∃ r, resolve u (buildIndex u names) q = some r ∧
      (Indexed u (buildIndex u names) (u.strip q) ∨
          unique u (buildIndex u names) (u.norm (u.strip q)) = none → Stands u (u.strip q) r) ∧
      (¬ Indexed u (buildIndex u names) (u.strip q) →
        ∀ h ∈ unique u (buildIndex u names) (u.norm (u.strip q)), r = h) := by
  rw [resolve_eq (ne_nil_of_code hcode) halias hname]
  cases hkr : bySymbol u (buildIndex u names) (u.upper (u.strip q)) "KR" with
  | some r =>
    obtain ⟨hr, hm, hup⟩ := bySymbol_some hkr
    exact ⟨r, rfl, fun _ => .of_symbol hr hup, fun h => absurd ⟨r, hr, .inl hm, hup⟩ h⟩
  | none =>
    cases hus : bySymbol u (buildIndex u names) (u.upper (u.strip q)) "US" with
    | some r =>
      obtain ⟨hr, hm, hup⟩ := bySymbol_some hus
      exact ⟨r, rfl, fun _ => .of_symbol hr hup, fun h => absurd ⟨r, hr, .inr hm, hup⟩ h⟩
    | none =>
      have hnot : ¬ Indexed u (buildIndex u names) (u.strip q) := by
        rintro ⟨r, hr, hm | hm, hup⟩
        · exact bySymbol_none hkr r hr hm hup
        · exact bySymbol_none hus r hr hm hup
      cases huniq : unique u (buildIndex u names) (u.norm (u.strip q)) with
      | some r =>
        refine ⟨r, rfl, fun h => ?_, fun _ h hh => Option.some.inj hh⟩
        rcases h with h | h
        · exact absurd h hnot
        · cases h
      | none =>
        obtain ⟨r, hr, hstands⟩ := exists_direct hcode
        exact ⟨r, by simpa using hr, fun _ => hstands, fun _ h hh => by cases hh⟩

/-! ## A query that begins a name -/

def asciiUpper (c : ℕ) : ℕ := if 97 ≤ c ∧ c ≤ 122 then c - 32 else c

def asciiLower (c : ℕ) : ℕ := if 65 ≤ c ∧ c ≤ 90 then c + 32 else c

theorem eq_of_map_asciiUpper : ∀ {s t : Text}, (t.all fun c => 48 ≤ c && c ≤ 57) →
    s.map asciiUpper = t.map asciiUpper → s = t
  | [], [], _, _ => rfl
  | [], _ :: _, _, h => by cases h
  | _ :: _, [], _, h => by cases h
  | c :: s, d :: t, ht, h => by
    obtain ⟨hd, ht⟩ := Bool.and_eq_true_iff.mp ht
    obtain ⟨hcd, hst⟩ := List.cons.inj h
    rw [eq_of_map_asciiUpper ht hst]
    simp only [asciiUpper, Bool.and_eq_true, decide_eq_true_eq] at hcd hd
    split_ifs at hcd <;> grind

/-- The characters below 128. -/
def ascii : Unicode where
  upper s := s.map asciiUpper
  lower s := s.map asciiLower
  isSpace c := c = 32 || (9 ≤ c && c ≤ 13) || (28 ≤ c && c ≤ 31)
  isDigit c := 48 ≤ c && c ≤ 57
  upper_upper s := by
    rw [List.map_map]
    refine List.map_congr_left fun c _ => ?_
    simp only [Function.comp, asciiUpper]
    split_ifs <;> omega
  eq_of_upper := eq_of_map_asciiUpper

def demoNames : Names :=
  [("KR", [(text "005930", text "Samsung Electronics")]),
    ("US", [(text "AAPL", text "Apple Inc."), (text "MSFT", text "Microsoft Corp")])]

/-- What has the shape of a ticker is taken for the one name that begins with it. -/
theorem resolve_ticker_prefix :
    usTicker (ascii.strip (text "Apple")) ∧
      aliases.lookup (ascii.norm (ascii.strip (text "Apple"))) = none ∧
      (∀ r ∈ buildIndex ascii demoNames, ascii.norm r.name ≠ ascii.norm (text "Apple")) ∧
      resolve ascii (buildIndex ascii demoNames) (text "Apple") =
        some ⟨"US", text "AAPL", text "Apple Inc."⟩ ∧
      text "AAPL" ≠ ascii.upper (text "Apple") := by
  decide +kernel

theorem resolve_code_demo :
    ∃ r, resolve ascii (buildIndex ascii demoNames) (text " msft") = some r ∧
      (Indexed ascii (buildIndex ascii demoNames) (ascii.strip (text " msft")) ∨
          unique ascii (buildIndex ascii demoNames) (ascii.norm (ascii.strip (text " msft"))) =
            none → Stands ascii (ascii.strip (text " msft")) r) ∧
      (¬ Indexed ascii (buildIndex ascii demoNames) (ascii.strip (text " msft")) →
        ∀ h ∈ unique ascii (buildIndex ascii demoNames)
          (ascii.norm (ascii.strip (text " msft"))), r = h) :=
  resolve_code ascii demoNames (text " msft") (.inr (by decide +kernel)) (by decide +kernel)
    (by decide +kernel)

end QuantTrader.StockNames
