import Mathlib.Algebra.BigOperators.Group.List.Basic
import Mathlib.Algebra.Order.Ring.Rat
import Mathlib.Data.Finset.Card
import Mathlib.Data.List.DropRight
import Mathlib.Tactic.Linarith
import QuantTrader.ClickHouse.Replacing
import QuantTrader.Holdings.Grouping

/-! # 13F holdings

The lines of an information table are added up by CUSIP, and a row is inserted for each
of them under its ticker and the period. A later row of the ticker in that period takes
the place of the earlier: of the totals of several CUSIPs only the last stay.
-/

namespace QuantTrader.Holdings

open ClickHouse Grouping

abbrev Line := List String

namespace Line

def field (p : Line) (i : ℕ) : String := p.getD i ""

def accession (p : Line) : String := p.field 0

def cusip (p : Line) : String := p.field 4

end Line

/-- The whitespace of `str.strip` in `latin1`. -/
def space (c : Char) : Bool := c.toNat ∈ [9, 10, 11, 12, 13, 28, 29, 30, 31, 32, 133, 160]

def strip (s : String) : List Char := (s.toList.dropWhile space).rdropWhile space

/-- The amount is one of shares, not of principal. -/
def Line.inShares (p : Line) : Bool := (strip (p.field 8)).map Char.toUpper = ['S', 'H']

/-- A holding of a CUSIP that is known, and no option. -/
def Line.counts (cusips : String → Bool) (p : Line) : Bool :=
  10 ≤ p.length && cusips p.cusip && (strip (p.field 9)).isEmpty

structure Totals where
  h : Finset String
  sh : ℚ
  v : ℚ
  deriving DecidableEq

structure Row where
  symbol : String
  periodEnd : ℤ
  numHolders : ℕ
  totalShares : ℚ
  totalValue : ℚ
  deriving DecidableEq

/-- The replacement key of `institutional_13f`. -/
def Row.key (r : Row) : String × ℤ := (r.symbol, r.periodEnd)

section

variable (float : String → Option ℚ) (cusip2tk : String → Option String)

/-- `float(text or 0)`, without a number a `ValueError`. -/
def number (text : String) : Option ℚ := if text = "" then some 0 else float text

def Totals.start : Totals := ⟨∅, 0, 0⟩

/-- A holding; its shares are not read any more when its value has no number. -/
def Totals.add (a : Totals) (p : Line) : Totals :=
  let a := { a with h := insert p.accession a.h }
  match number float (p.field 6) with
  | none => a
  | some v =>
    let a := { a with v := a.v + v }
    if p.inShares then
      match number float (p.field 7) with
      | none => a
      | some n => { a with sh := a.sh + n }
    else a

/-- `_aggregate`; a dict is the list of its items. -/
def aggregate (cusips : String → Bool) (lines : List Line) : List (String × Totals) :=
  lines.foldl (fun agg p =>
    if p.counts cusips then upsert .start p.cusip (·.add float p) agg else agg) []

/-- A file with the end of its period; nothing is read of one that is missing or broken. -/
abbrev File := ℤ × Option (List Line)

def rows (file : File) : List Row :=
  match file.2 with
  | none => []
  | some lines => (aggregate float (fun cu => (cusip2tk cu).isSome) lines).filterMap fun (cu, a) =>
    (cusip2tk cu).map fun symbol => ⟨symbol, file.1, a.h.card, a.sh, a.v⟩

/-- The rows that `collect` inserts; a run that has none raises. -/
def collect (quarters : List File) : List Row := quarters.flatMap (rows float cusip2tk)

end

/-! ## Holdings of a ticker -/

section

variable (float : String → Option ℚ) (cusip2tk : String → Option String) (symbol : String)
  (period : ℤ)

def holdings (lines : List Line) : List Line :=
  lines.filter fun p => p.counts (fun cu => (cusip2tk cu).isSome) && cusip2tk p.cusip = some symbol

/-- The holdings of a ticker in the files of a period, file by file. -/
def filed (quarters : List File) : List (List Line) :=
  (quarters.filterMap fun file => if file.1 = period then
    file.2.map (holdings cusip2tk symbol) else none).filter (· ≠ [])

def shares (p : Line) : ℚ := if p.inShares then (number float (p.field 7)).getD 0 else 0

/-- The row of a ticker holds the distinct holders and the shares of all of its holdings. -/
def Complete (quarters : List File) (table : List Row) : Prop :=
  ∃ r ∈ final Row.key table, r.key = (symbol, period) ∧
    r.numHolders =
      ((filed cusip2tk symbol period quarters).flatten.map Line.accession).toFinset.card ∧
    r.totalShares = ((filed cusip2tk symbol period quarters).flatten.map (shares float)).sum

end

def newest (lines : List Line) : Option String := (firsts (lines.map Line.cusip)).getLast?

/-- The holdings of the CUSIP that comes in last, in the last file. -/
def kept (files : List (List Line)) : List Line :=
  (files.getLastD []).filter fun p => newest (files.getLastD []) = some p.cusip

/-- The holdings of the other CUSIPs and of the earlier files. -/
def replaced (files : List (List Line)) : List Line :=
  files.dropLast.flatten ++
    (files.getLastD []).filter fun p => newest (files.getLastD []) ≠ some p.cusip

/-- The holdings that are replaced have no holder of their own, and their shares and those of the
holdings whose value has no number are none. -/
structure NothingLost (float : String → Option ℚ) (files : List (List Line)) : Prop where
  holders : ∀ p ∈ replaced files, ∃ q ∈ kept files, q.accession = p.accession
  shares : ((replaced files).map (shares float)).sum +
    (((kept files).filter fun p => number float (p.field 6) = none).map (shares float)).sum = 0

/-! ## The row that is read -/

section

variable {float : String → Option ℚ} {cusip2tk : String → Option String} {symbol : String}
  {period : ℤ} {quarters : List File} {before : List Row} {files : List (List Line)}

def totals (float : String → Option ℚ) (lines : List Line) : Totals :=
  lines.foldl (Totals.add float) .start

theorem aggregate_eq (cusips : String → Bool) (lines : List Line) :
    aggregate float cusips lines =
      (firsts ((lines.filter (·.counts cusips)).map Line.cusip)).map fun cu =>
        (cu, totals float ((lines.filter (·.counts cusips)).filter fun p => p.cusip = cu)) := by
  simp only [totals]
  rw [← grouped_eq, grouped, List.foldl_filter]
  rfl

/-- The row of a ticker for some holdings. -/
def rowOf (float : String → Option ℚ) (symbol : String) (period : ℤ) (lines : List Line) : Row :=
  let a := totals float lines
  ⟨symbol, period, a.h.card, a.sh, a.v⟩

/-- The last row of a key is that of the last index with the key. -/
theorem latest_filterMap {ι : Type} (F : ι → Option Row) (is : List ι) (k : String × ℤ) :
    latest k (keyed Row.key (is.filterMap F)) =
      (is.filter fun i => (F i).map Row.key = some k).getLast?.bind F := by
  induction is using List.reverseRecOn with
  | nil => rfl
  | append_singleton is i ih =>
    rw [List.filterMap_append, keyed_append, latest_append, ih, List.filter_append]
    cases hF : F i with
    | none => simp [hF, keyed]
    | some r =>
      by_cases hk : r.key = k
      · simp [hF, hk, keyed, latest_cons]
      · simp [hF, hk, keyed, latest_cons]

/-- The holdings of the CUSIPs with a ticker. -/
def known (cusip2tk : String → Option String) (lines : List Line) : List Line :=
  lines.filter (·.counts fun cu => (cusip2tk cu).isSome)

theorem holdings_eq (lines : List Line) : holdings cusip2tk symbol lines =
    (known cusip2tk lines).filter fun p => cusip2tk p.cusip = some symbol := by
  rw [holdings, known, List.filter_filter]
  simp only [Bool.and_comm]

theorem rows_eq (lines : List Line) : rows float cusip2tk (period, some lines) =
    (firsts ((known cusip2tk lines).map Line.cusip)).filterMap fun cu =>
      (cusip2tk cu).map fun symbol =>
        rowOf float symbol period ((known cusip2tk lines).filter fun p => p.cusip = cu) := by
  change (aggregate float _ lines).filterMap _ = _
  rw [aggregate_eq, List.filterMap_map]
  rfl

/-- The last row of a ticker in a file is that of the CUSIP that comes in last. -/
theorem latest_rows (lines : List Line) :
    latest (symbol, period) (keyed Row.key (rows float cusip2tk (period, some lines))) =
      (newest (holdings cusip2tk symbol lines)).map fun cu =>
        rowOf float symbol period
          ((holdings cusip2tk symbol lines).filter fun p => p.cusip = cu) := by
  have hkey : ∀ cu own, ((cusip2tk cu).map fun symbol' =>
      rowOf float symbol' period own).map Row.key = some (symbol, period) ↔
        cusip2tk cu = some symbol := by
    intro cu own
    cases cusip2tk cu <;> simp [Row.key, rowOf]
  have hnewest : ((firsts ((known cusip2tk lines).map Line.cusip)).filter fun cu =>
      cusip2tk cu = some symbol).getLast? = newest (holdings cusip2tk symbol lines) := by
    rw [newest, ← firsts_filter, holdings_eq, List.filter_map]
    rfl
  rw [rows_eq, latest_filterMap]
  simp only [hkey, hnewest]
  cases hn : newest (holdings cusip2tk symbol lines) with
  | none => rfl
  | some cu =>
    rw [← hnewest] at hn
    have hcu := of_decide_eq_true (List.mem_filter.mp (List.mem_of_getLast? hn)).2
    have hown : (holdings cusip2tk symbol lines).filter (fun p => p.cusip = cu) =
        (known cusip2tk lines).filter fun p => p.cusip = cu := by
      rw [holdings_eq, List.filter_filter]
      apply List.filter_congr
      intro p _
      by_cases hp : p.cusip = cu
      · simp [hp, hcu]
      · simp [hp]
    rw [Option.bind_some, Option.map_some, hcu, hown]
    rfl

theorem newest_isSome {lines : List Line} (h : lines ≠ []) :
    ∃ cu, newest lines = some cu := by
  cases hn : newest lines with
  | some cu => exact ⟨cu, rfl⟩
  | none =>
    obtain ⟨p, hp⟩ := List.exists_mem_of_ne_nil lines h
    have hmem : p.cusip ∈ firsts (lines.map Line.cusip) := mem_firsts.mpr (List.mem_map_of_mem hp)
    rw [newest, List.getLast?_eq_none_iff] at hn
    rw [hn] at hmem
    cases hmem

theorem latest_rows_other {file : File} (h : file.1 ≠ period) :
    latest (symbol, period) (keyed Row.key (rows float cusip2tk file)) = none := by
  apply latest_eq_none
  intro r hr
  obtain ⟨hmem, hkey⟩ := mem_keyed.mp hr
  obtain ⟨d, lines⟩ := file
  cases lines with
  | none => cases hmem
  | some lines =>
    rw [rows_eq, List.mem_filterMap] at hmem
    obtain ⟨cu, -, hcu⟩ := hmem
    obtain ⟨symbol', -, rfl⟩ := Option.map_eq_some_iff.mp hcu
    exact h (Prod.mk.inj hkey).2

theorem filed_snoc (quarters : List File) (file : File) :
    filed cusip2tk symbol period (quarters ++ [file]) =
      filed cusip2tk symbol period quarters ++ filed cusip2tk symbol period [file] := by
  rw [filed, List.filterMap_append, List.filter_append]
  rfl

theorem filed_singleton (lines : List Line) :
    filed cusip2tk symbol period [(period, some lines)] =
      if holdings cusip2tk symbol lines = [] then [] else [holdings cusip2tk symbol lines] := by
  by_cases h : holdings cusip2tk symbol lines = [] <;> simp [filed, h]

theorem filed_other {file : File} (h : file.1 ≠ period) :
    filed cusip2tk symbol period [file] = [] := by
  simp [filed, h]

theorem latest_file {lines : List Line} (h : holdings cusip2tk symbol lines ≠ []) :
    latest (symbol, period) (keyed Row.key (rows float cusip2tk (period, some lines))) =
      some (rowOf float symbol period (kept (files ++ [holdings cusip2tk symbol lines]))) := by
  obtain ⟨cu, hcu⟩ := newest_isSome h
  rw [latest_rows, hcu, Option.map_some, kept, List.getLastD_concat, hcu]
  simp only [Option.some.injEq, eq_comm]

/-- The last row of a ticker and a period is that of the holdings that are kept. -/
theorem latest_collect (quarters : List File) :
    latest (symbol, period) (keyed Row.key (collect float cusip2tk quarters)) =
      if filed cusip2tk symbol period quarters = [] then none
      else some (rowOf float symbol period (kept (filed cusip2tk symbol period quarters))) := by
  induction quarters using List.reverseRecOn with
  | nil => rfl
  | append_singleton quarters file ih =>
    have hcollect : collect float cusip2tk (quarters ++ [file]) =
        collect float cusip2tk quarters ++ rows float cusip2tk file := by
      rw [collect, List.flatMap_append, List.flatMap_singleton]
      rfl
    rw [hcollect, keyed_append, latest_append, ih, filed_snoc]
    by_cases hperiod : file.1 = period
    · obtain ⟨d, lines⟩ := file
      obtain rfl : d = period := hperiod
      cases lines with
      | none =>
        have hnone : filed cusip2tk symbol d [(d, none)] = [] := by simp [filed]
        rw [hnone, List.append_nil]
        rfl
      | some lines =>
        rw [filed_singleton]
        by_cases hl : holdings cusip2tk symbol lines = []
        · rw [latest_rows, hl, if_pos rfl, List.append_nil]
          rfl
        · rw [latest_file hl, if_neg hl, if_neg (List.append_ne_nil_of_right_ne_nil _ (by simp))]
          rfl
    · rw [latest_rows_other hperiod, filed_other hperiod, List.append_nil]
      rfl

/-! ## The totals -/

theorem totals_snoc (lines : List Line) (p : Line) :
    totals float (lines ++ [p]) = (totals float lines).add float p := by
  rw [totals, List.foldl_append]
  rfl

theorem Totals.add_h (a : Totals) (p : Line) : (a.add float p).h = insert p.accession a.h := by
  rw [Totals.add]
  cases number float (p.field 6) with
  | none => rfl
  | some v =>
    dsimp only
    split_ifs
    · cases number float (p.field 7) <;> rfl
    · rfl

theorem Totals.add_sh (a : Totals) (p : Line) : (a.add float p).sh =
    a.sh + if number float (p.field 6) = none then 0 else shares float p := by
  rw [Totals.add]
  cases number float (p.field 6) with
  | none => simp
  | some v =>
    rw [if_neg (by simp), shares]
    dsimp only
    split_ifs
    · cases number float (p.field 7) <;> simp
    · simp

theorem totals_h (lines : List Line) :
    (totals float lines).h = (lines.map Line.accession).toFinset := by
  induction lines using List.reverseRecOn with
  | nil => rfl
  | append_singleton lines p ih =>
    rw [totals_snoc, Totals.add_h, ih, List.map_append, List.toFinset_append]
    simp

theorem totals_sh (lines : List Line) :
    (totals float lines).sh +
      ((lines.filter fun p => number float (p.field 6) = none).map (shares float)).sum =
        (lines.map (shares float)).sum := by
  induction lines using List.reverseRecOn with
  | nil => simp [totals, Totals.start]
  | append_singleton lines p ih =>
    rw [totals_snoc, Totals.add_sh, List.filter_append, List.map_append, List.map_append,
      List.sum_append, List.sum_append, ← ih]
    by_cases hp : number float (p.field 6) = none
    · simp [hp, add_assoc]
    · simp [hp, add_right_comm]

theorem perm_kept_replaced (h : files ≠ []) :
    files.flatten.Perm (kept files ++ replaced files) := by
  obtain ⟨before, ls, rfl⟩ : ∃ before ls, files = before ++ [ls] :=
    ⟨_, _, (List.dropLast_append_getLast h).symm⟩
  rw [kept, replaced, List.getLastD_concat, List.dropLast_concat, List.flatten_append,
    List.flatten_singleton]
  have hls := List.filter_append_perm (fun p => decide (newest ls = some p.cusip)) ls
  simp only [← decide_not] at hls
  refine List.perm_append_comm.trans ((hls.symm.append_right _).trans ?_)
  rw [List.append_assoc]
  exact List.perm_append_comm.append_left _

theorem holders_iff (h : files ≠ []) :
    ((kept files).map Line.accession).toFinset.card =
        (files.flatten.map Line.accession).toFinset.card ↔
      ∀ p ∈ replaced files, ∃ q ∈ kept files, q.accession = p.accession := by
  have hperm := (perm_kept_replaced h).map Line.accession
  rw [List.toFinset_eq_of_perm _ _ hperm, List.map_append, List.toFinset_append]
  constructor
  · intro hcard p hp
    have heq := Finset.eq_of_subset_of_card_le Finset.subset_union_left hcard.ge
    have hmem : p.accession ∈ ((kept files).map Line.accession).toFinset := by
      rw [heq, Finset.mem_union, List.mem_toFinset, List.mem_toFinset]
      exact Or.inr (List.mem_map_of_mem hp)
    exact List.mem_map.mp (List.mem_toFinset.mp hmem)
  · intro hall
    rw [Finset.union_eq_left.mpr]
    intro x hx
    obtain ⟨p, hp, rfl⟩ := List.mem_map.mp (List.mem_toFinset.mp hx)
    obtain ⟨q, hq, heq⟩ := hall p hp
    rw [← heq, List.mem_toFinset]
    exact List.mem_map_of_mem hq

theorem shares_iff (h : files ≠ []) :
    (totals float (kept files)).sh = (files.flatten.map (shares float)).sum ↔
      ((replaced files).map (shares float)).sum +
        (((kept files).filter fun p => number float (p.field 6) = none).map (shares float)).sum =
          0 := by
  rw [((perm_kept_replaced h).map (shares float)).sum_eq, List.map_append, List.sum_append,
    ← totals_sh (kept files)]
  constructor <;> intro heq <;> linarith

/-- The row of a ticker and a period is complete exactly when no holding of its CUSIPs is lost:
the totals of one of them take the place of the others. -/
theorem aggregated_complete_iff (h : filed cusip2tk symbol period quarters ≠ []) :
    Complete float cusip2tk symbol period quarters
        (before ++ collect float cusip2tk quarters) ↔
      NothingLost float (filed cusip2tk symbol period quarters) := by
  have hlast : latest (symbol, period)
      (keyed Row.key (before ++ collect float cusip2tk quarters)) =
        some (rowOf float symbol period (kept (filed cusip2tk symbol period quarters))) := by
    rw [keyed_append, latest_append, latest_collect, if_neg h, Option.some_or]
  have hrow : ((rowOf float symbol period
      (kept (filed cusip2tk symbol period quarters))).numHolders =
        ((kept (filed cusip2tk symbol period quarters)).map Line.accession).toFinset.card) := by
    exact congrArg Finset.card (totals_h (kept (filed cusip2tk symbol period quarters)))
  constructor
  · rintro ⟨r, hr, hkey, hholders, hshares⟩
    rw [mem_final, hkey, hlast, Option.some.injEq] at hr
    subst hr
    exact ⟨(holders_iff h).mp (hrow.symm.trans hholders), (shares_iff h).mp hshares⟩
  · rintro ⟨hholders, hshares⟩
    have hmem : rowOf float symbol period (kept (filed cusip2tk symbol period quarters)) ∈
        final Row.key (before ++ collect float cusip2tk quarters) := mem_final.mpr hlast
    exact ⟨_, hmem, rfl, hrow.trans ((holders_iff h).mpr hholders), (shares_iff h).mpr hshares⟩

/-- Nothing is lost of one CUSIP in one file, when every value has a number. -/
theorem nothingLost_single {lines : List Line} (h : lines ≠ [])
    (hcusip : ∀ p ∈ lines, ∀ q ∈ lines, p.cusip = q.cusip)
    (hvalue : ∀ p ∈ lines, number float (p.field 6) ≠ none) : NothingLost float [lines] := by
  have hnewest : ∀ p ∈ lines, newest lines = some p.cusip := by
    intro p hp
    obtain ⟨cu, hcu⟩ := newest_isSome h
    obtain ⟨q, hq, rfl⟩ := List.mem_map.mp (mem_firsts.mp (List.mem_of_getLast? hcu))
    rw [hcu, hcusip q hq p hp]
  have hreplaced : replaced [lines] = [] := by
    rw [replaced, List.getLastD_cons, List.getLastD_nil, List.append_eq_nil_iff,
      List.filter_eq_nil_iff]
    exact ⟨rfl, fun p hp => by simp [hnewest p hp]⟩
  have hread : (kept [lines]).filter (fun p => number float (p.field 6) = none) = [] := by
    rw [List.filter_eq_nil_iff]
    intro p hp
    simp [hvalue p (List.mem_of_mem_filter hp)]
  constructor
  · rw [hreplaced]
    exact fun p hp => absurd hp List.not_mem_nil
  · rw [hreplaced, hread, List.map_nil, List.sum_nil, add_zero]

end

def digits (t : String) : Option ℚ :=
  if t.toList.all Char.isDigit then
    some (t.toList.foldl (fun (n : ℕ) c => 10 * n + (c.toNat - 48)) 0 : ℕ)
  else none

def demoTicker (cusip : String) : Option String := if cusip = "OTHER" then none else some "ACME"

def demoLine (accession cusip n : String) : Line :=
  [accession, "", "", "", cusip, "", n, n, "SH", ""]

/-- Two CUSIPs of a ticker in one period. -/
def twoCusips : List File := [(1, some [demoLine "a" "OLD" "100", demoLine "b" "NEW" "50"])]

theorem aggregated_complete_iff_demo : Complete digits demoTicker "ACME" 1
      [(1, some [demoLine "a" "OLD" "100", demoLine "b" "OLD" "50"])]
      ([] ++ collect digits demoTicker
        [(1, some [demoLine "a" "OLD" "100", demoLine "b" "OLD" "50"])]) ↔
    NothingLost digits (filed demoTicker "ACME" 1
      [(1, some [demoLine "a" "OLD" "100", demoLine "b" "OLD" "50"])]) :=
  aggregated_complete_iff (by decide +kernel)

/-- The holder and the shares under the first CUSIP are gone. -/
theorem not_complete_twoCusips :
    ¬ Complete digits demoTicker "ACME" 1 twoCusips (collect digits demoTicker twoCusips) := by
  rintro ⟨r, hr, -, hholders, -⟩
  have hfinal : final Row.key (collect digits demoTicker twoCusips) = [⟨"ACME", 1, 1, 50, 50⟩] := by
    decide +kernel
  have hall : ((filed demoTicker "ACME" 1 twoCusips).flatten.map Line.accession).toFinset.card =
      2 := by
    decide +kernel
  rw [hfinal] at hr
  rw [hall, List.mem_singleton.mp hr] at hholders
  cases hholders

end QuantTrader.Holdings
