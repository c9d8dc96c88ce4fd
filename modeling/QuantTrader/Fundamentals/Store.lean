import Mathlib.Data.List.Dedup
import QuantTrader.ClickHouse.Replacing
import QuantTrader.Fundamentals.Edgar

/-! # The store of filed facts

The facts of a company become rows of `fundamentals_quarterly`, and the last row
of a key replaces the others. The key leaves out the duration: two durations of one
account that end and are filed on the same days cannot both be read back.
-/

namespace QuantTrader.Fundamentals

open ClickHouse

/-! ## Documents -/

/-- The `ns` of `_entries`. -/
inductive Taxonomy
  | usGaap | dei

/-- A record of a unit; dates count days. -/
structure Entry where
  start : Option ℤ
  endDate : Option ℤ
  filed : Option ℤ
  form : Option String
  val : Option ℚ

/-- The document of a company: the unit lists of each tag. -/
structure Companyfacts where
  units : Taxonomy → String → Option (List (List Entry))

/-- `_entries`. -/
def entries (facts : Companyfacts) (names : List String) : List Entry :=
  ([.usGaap, .dei].findSome? fun ns =>
    names.findSome? fun nm => (facts.units ns nm).bind List.head?).getD []

/-- `_CONCEPTS`. -/
def concepts : List (Concept × List String) :=
  [(.shares, ["EntityCommonStockSharesOutstanding", "CommonStockSharesOutstanding",
      "WeightedAverageNumberOfDilutedSharesOutstanding"]),
    (.equity, ["StockholdersEquity",
      "StockholdersEquityIncludingPortionAttributableToNoncontrollingInterest"]),
    (.assets, ["Assets"]),
    (.netIncome, ["NetIncomeLoss", "ProfitLoss"]),
    (.revenue, ["RevenueFromContractWithCustomerExcludingAssessedTax", "Revenues",
      "RevenueFromContractWithCustomerIncludingAssessedTax", "SalesRevenueNet"]),
    (.opCashflow, ["NetCashProvidedByUsedInOperatingActivities",
      "NetCashProvidedByUsedInOperatingActivitiesContinuingOperations"])]

/-! ## Rows -/

/-- A row of `fundamentals_quarterly`. -/
structure Row where
  symbol : String
  fact : Fact
  form : String
  deriving DecidableEq

/-- The days of a flow, zero for an instant. -/
def duration (start : Option ℤ) (endDate : ℤ) : ℕ :=
  match start with
  | none => 0
  | some start => (max 0 (min 65535 (endDate - start))).toNat

def row (symbol : String) (concept : Concept) (e : Entry) : Option Row := do
  let val ← e.val
  let endDate ← e.endDate
  let filed ← e.filed
  return ⟨symbol, ⟨concept, endDate, filed, duration e.start endDate, val⟩, e.form.getD ""⟩

/-- `_rows`. -/
def rows (symbol : String) (facts : Companyfacts) : List Row :=
  concepts.flatMap fun (concept, tags) => (entries facts tags).filterMap (row symbol concept)

/-- `store_us_fundamentals` on the symbols that have a document. -/
def storeUsFundamentals (documents : List (String × Companyfacts)) (table : List Row) : List Row :=
  documents.foldl (fun table (symbol, facts) => table ++ rows symbol facts) table

/-! ## The table -/

/-- `ORDER BY`. -/
def Row.key (r : Row) : String × Concept × ℤ × ℤ :=
  (r.symbol, r.fact.concept, r.fact.periodEnd, r.fact.filedDate)

def keyed (table : List Row) : List ((String × Concept × ℤ × ℤ) × Row) :=
  table.map fun r => (r.key, r)

/-- `FROM fundamentals_quarterly FINAL`. -/
def final (table : List Row) : List Row :=
  (table.map Row.key).dedup.filterMap fun k => latest k (keyed table)

def stored (table : List Row) (symbol : String) : List Fact :=
  ((final table).filter fun r => r.symbol = symbol).map Row.fact

/-- A row with the identity of `f` is read back. -/
def Present (table : List Row) (f : Row) : Prop :=
  ∃ r ∈ final table, r.key = f.key ∧ r.fact.durationD = f.fact.durationD

instance (table : List Row) (f : Row) : Decidable (Present table f) :=
  inferInstanceAs (Decidable (∃ r ∈ final table, r.key = f.key ∧ _))

/-- No two facts of the document that end and are filed on the same days have different
durations. -/
def OneDuration (symbol : String) (facts : Companyfacts) : Prop :=
  ∀ f ∈ rows symbol facts, ∀ g ∈ rows symbol facts, f.key = g.key →
    f.fact.durationD = g.fact.durationD

variable {symbol : String} {facts : Companyfacts} {concept : Concept} {e : Entry} {f r : Row}
  {table before after : List Row} {documents : List (String × Companyfacts)}

theorem symbol_of_row (h : row symbol concept e = some r) : r.symbol = symbol := by
  simp only [row, Option.bind_eq_bind, Option.bind_eq_some_iff] at h
  obtain ⟨val, -, endDate, -, filed, -, heq⟩ := h
  rw [← Option.some.inj heq]

theorem symbol_of_mem_rows (h : r ∈ rows symbol facts) : r.symbol = symbol := by
  obtain ⟨⟨concept, tags⟩, -, hmem⟩ := List.mem_flatMap.mp h
  obtain ⟨e, -, hrow⟩ := List.mem_filterMap.mp hmem
  exact symbol_of_row hrow

theorem mem_keyed {k : String × Concept × ℤ × ℤ} :
    (k, r) ∈ keyed table ↔ r ∈ table ∧ r.key = k := ClickHouse.mem_keyed

theorem keyed_append : keyed (before ++ after) = keyed before ++ keyed after := List.map_append

theorem mem_final : r ∈ final table ↔ latest r.key (keyed table) = some r := ClickHouse.mem_final

theorem present_iff : Present table f ↔
    ∃ r, latest f.key (keyed table) = some r ∧ r.fact.durationD = f.fact.durationD := by
  constructor
  · rintro ⟨r, hmem, hkey, hdur⟩
    exact ⟨r, hkey ▸ mem_final.mp hmem, hdur⟩
  · rintro ⟨r, hlast, hdur⟩
    obtain ⟨-, hkey⟩ := mem_keyed.mp (mem_of_latest hlast)
    exact ⟨r, mem_final.mpr (hkey.symm ▸ hlast), hkey, hdur⟩

/-! ## Storing a document -/

/-- The rows of a document as a table has them after `before`: all of them in any order,
any number of times, between the rows of other symbols. -/
def Holds (symbol : String) (facts : Companyfacts) (after : List Row) : Prop :=
  ∀ r, r.symbol = symbol → (r ∈ after ↔ r ∈ rows symbol facts)

theorem Holds.perm (h : Holds symbol facts before) (hp : before.Perm after) :
    Holds symbol facts after := fun r hr => hp.mem_iff.symm.trans (h r hr)

theorem Holds.mem_iff (h : Holds symbol facts after) (hf : f ∈ rows symbol facts)
    (hkey : r.key = f.key) : r ∈ after ↔ r ∈ rows symbol facts :=
  h r ((congrArg Prod.fst hkey).trans (symbol_of_mem_rows hf))

theorem storeUsFundamentals_eq : storeUsFundamentals documents table =
    table ++ documents.flatMap fun d => rows d.1 d.2 := by
  induction documents generalizing table with
  | nil => exact (List.append_nil table).symm
  | cons d documents ih =>
    calc storeUsFundamentals (d :: documents) table
        = storeUsFundamentals documents (table ++ rows d.1 d.2) := rfl
      _ = table ++ rows d.1 d.2 ++ documents.flatMap fun d => rows d.1 d.2 := ih
      _ = _ := by rw [List.append_assoc, List.flatMap_cons]

theorem holds_documents (hmem : (symbol, facts) ∈ documents)
    (hone : ∀ other, (symbol, other) ∈ documents → other = facts) :
    Holds symbol facts (documents.flatMap fun d => rows d.1 d.2) := by
  rintro r rfl
  rw [List.mem_flatMap]
  constructor
  · rintro ⟨⟨symbol, other⟩, hd, hr⟩
    obtain rfl : r.symbol = symbol := symbol_of_mem_rows hr
    rwa [hone other hd] at hr
  · intro hr
    exact ⟨_, hmem, hr⟩

theorem Holds.forall_present_iff (h : Holds symbol facts after) :
    (∀ f ∈ rows symbol facts, Present (before ++ after) f) ↔ OneDuration symbol facts := by
  have hkept (f : Row) :=
    forall_kept_iff (k := f.key) (fun r : Row => r.fact.durationD) (keyed before) (keyed after)
  have hmem {f r : Row} (hf : f ∈ rows symbol facts) :
      (f.key, r) ∈ keyed after ↔ r ∈ rows symbol facts ∧ r.key = f.key := by
    rw [mem_keyed]
    exact and_congr_left fun hkey => h.mem_iff hf hkey
  constructor
  · intro hall f hf g hg heq
    refine (hkept f).mp ?_ f ((hmem hf).mpr ⟨hf, rfl⟩) g ((hmem hf).mpr ⟨hg, heq.symm⟩)
    intro r hr
    obtain ⟨hr, hkey⟩ := (hmem hf).mp hr
    have hpresent := present_iff.mp (hall r hr)
    rwa [keyed_append, hkey] at hpresent
  · intro hone f hf
    rw [present_iff, keyed_append]
    refine (hkept f).mpr ?_ f ((hmem hf).mpr ⟨hf, rfl⟩)
    intro r hr r' hr'
    obtain ⟨hr, hkey⟩ := (hmem hf).mp hr
    obtain ⟨hr', hkey'⟩ := (hmem hf).mp hr'
    exact hone r hr r' hr' (hkey.trans hkey'.symm)

/-- Every fact of a document is read back exactly when no two of its facts that share a key
have different durations, whatever the order in which the rows of a run are inserted. -/
theorem all_present_iff (hmem : (symbol, facts) ∈ documents)
    (hone : ∀ other, (symbol, other) ∈ documents → other = facts)
    (hperm : (documents.flatMap fun d => rows d.1 d.2).Perm after) :
    (∀ f ∈ rows symbol facts, Present (before ++ after) f) ↔ OneDuration symbol facts :=
  ((holds_documents hmem hone).perm hperm).forall_present_iff

/-- A quarterly report: the net income of three months and of the year to date. -/
def tenQ : Companyfacts where
  units
    | .usGaap, "NetIncomeLoss" =>
      some [[⟨some 19814, some 19904, some 19936, some "10-Q", some 21448⟩,
        ⟨some 19723, some 19904, some 19936, some "10-Q", some 79000⟩]]
    | _, _ => none

/-- The next report has the assets and the net income of three months only, and restates the
quarter before. -/
def nextQ : Companyfacts where
  units
    | .usGaap, "NetIncomeLoss" =>
      some [[⟨some 19905, some 19995, some 20027, some "10-Q", some 22000⟩,
        ⟨some 19814, some 19904, some 20027, some "10-Q", some 21000⟩]]
    | .usGaap, "Assets" => some [[⟨none, some 19995, some 20027, some "10-Q", some 350000⟩]]
    | _, _ => none

theorem all_present_iff_demo :
    OneDuration "AAPL" nextQ ∧
    ∀ f ∈ rows "AAPL" nextQ,
      Present (rows "AAPL" tenQ ++ (rows "AAPL" nextQ ++ (rows "MSFT" tenQ ++ [])).reverse) f := by
  have hmem : ("AAPL", nextQ) ∈ [("AAPL", nextQ), ("MSFT", tenQ)] := List.mem_cons_self
  have hone : OneDuration "AAPL" nextQ := by
    unfold OneDuration
    decide +kernel
  refine ⟨hone, ?_⟩
  exact (all_present_iff hmem (fun other h => by simpa using h) (List.reverse_perm _).symm).mpr hone

theorem three_months_displaced :
    ¬ (∀ f ∈ rows "AAPL" tenQ, Present (rows "AAPL" tenQ) f) ∧
    (rows "AAPL" tenQ).map (fun f => f.fact.durationD) = [90, 181] ∧
    (stored (rows "AAPL" tenQ) "AAPL").map Fact.durationD = [181] ∧
    quarters (stored (rows "AAPL" tenQ) "AAPL") .netIncome = [] := by
  decide +kernel

/-! ## The quarters -/

theorem mem_stored {fact : Fact} : fact ∈ stored table symbol ↔
    ∃ form, latest (symbol, fact.concept, fact.periodEnd, fact.filedDate) (keyed table) =
      some ⟨symbol, fact, form⟩ := by
  unfold stored
  rw [List.mem_map]
  constructor
  · rintro ⟨r, hr, rfl⟩
    obtain ⟨hfinal, hsym⟩ := List.mem_filter.mp hr
    obtain rfl : r.symbol = symbol := by simpa using hsym
    exact ⟨r.form, mem_final.mp hfinal⟩
  · rintro ⟨form, hlast⟩
    refine ⟨⟨symbol, fact, form⟩, ?_, rfl⟩
    rw [List.mem_filter, mem_final]
    exact ⟨hlast, by simp⟩

/-- A flow account has a quarter that ends and is filed on two days exactly when the last
row of that key is one of 80 to 100 days. -/
theorem exists_quarter_iff {periodEnd filedDate : ℤ} :
    (∃ q ∈ quarters (stored table symbol) concept,
      q.periodEnd = periodEnd ∧ q.filed = filedDate) ↔
    ∃ r, latest (symbol, concept, periodEnd, filedDate) (keyed table) = some r ∧
      80 ≤ r.fact.durationD ∧ r.fact.durationD ≤ 100 := by
  unfold quarters
  constructor
  · rintro ⟨q, hq, rfl, rfl⟩
    obtain ⟨fact, hfact, rfl⟩ := List.mem_map.mp hq
    obtain ⟨hmem, hfilter⟩ := List.mem_filter.mp hfact
    obtain ⟨rfl, hdur⟩ := of_decide_eq_true hfilter
    obtain ⟨form, hlast⟩ := mem_stored.mp hmem
    exact ⟨_, hlast, hdur⟩
  · rintro ⟨r, hlast, hdur⟩
    obtain ⟨-, hkey⟩ := mem_keyed.mp (mem_of_latest hlast)
    simp only [Row.key, Prod.mk.injEq] at hkey
    obtain ⟨rfl, rfl, rfl, rfl⟩ := hkey
    have hmem : r.fact ∈ stored table r.symbol := mem_stored.mpr ⟨r.form, hlast⟩
    refine ⟨⟨r.fact.periodEnd, r.fact.filedDate, r.fact.value⟩, ?_, rfl, rfl⟩
    rw [List.mem_map]
    exact ⟨r.fact, List.mem_filter.mpr ⟨hmem, decide_eq_true ⟨rfl, hdur⟩⟩, rfl⟩

theorem quarter_read (h : Holds symbol facts after) (hone : OneDuration symbol facts)
    (hf : f ∈ rows symbol facts) (hdur : 80 ≤ f.fact.durationD ∧ f.fact.durationD ≤ 100) :
    ∃ q ∈ quarters (stored (before ++ after) symbol) f.fact.concept,
      q.periodEnd = f.fact.periodEnd ∧ q.filed = f.fact.filedDate := by
  rw [exists_quarter_iff]
  have hpresent : Present (before ++ after) f := h.forall_present_iff.mpr hone f hf
  obtain ⟨r, hlast, heq⟩ := present_iff.mp hpresent
  obtain rfl := symbol_of_mem_rows hf
  exact ⟨r, hlast, heq.symm ▸ hdur⟩

end QuantTrader.Fundamentals
