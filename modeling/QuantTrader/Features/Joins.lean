import QuantTrader.Features.Ohlcv

/-! # Joins on symbol and date

A left merge puts the row of a symbol and a date beside the rows that have them. A
table derived from the panel row by row joins the rows up to a date with what it
derives for them, whatever it derives later.
-/

namespace QuantTrader.Features

open Series Floats

structure Table (F : Type) where
  columns : List String
  rows : List (FeatureRow F)

section Merge

variable {F : Type} [Floats F]

/-- The cells of a symbol and a date, NaN without a row. -/
def partner (missing : List String) (right : List (FeatureRow F)) (symbol : String) (date : ℤ) :
    List (String × F) :=
  match right.find? fun b => b.symbol = symbol ∧ b.date = date with
  | some b => b.values
  | none => missing.map fun name => (name, nan)

def FeatureRow.add (r : FeatureRow F) (values : List (String × F)) : FeatureRow F :=
  { r with values := r.values ++ values }

/-- A left merge on symbol and date with a table that has one row for each. -/
def mergeLeft (missing : List String) (left right : List (FeatureRow F)) : List (FeatureRow F) :=
  left.map fun r => r.add (partner missing right r.symbol r.date)

/-- A frame made of rows of the same columns; without rows it has none. -/
def Table.concat (names : List String) (rows : List (FeatureRow F)) : Table F :=
  ⟨if rows.isEmpty then [] else names, rows⟩

def Table.upTo (t : Table F) (d : ℤ) : Table F := ⟨t.columns, t.rows.filter fun r => r.date ≤ d⟩

/-- The same rows in some order. -/
structure Table.Perm (t t' : Table F) : Prop where
  columns : t.columns = t'.columns
  rows : t.rows.Perm t'.rows

/-- The left merge with a table that is left out when it is empty. -/
def Table.join (left right : Table F) : Table F :=
  if right.rows.isEmpty then left
  else ⟨left.columns ++ right.columns, mergeLeft right.columns left.rows right.rows⟩

def Panel.ordered (S : Frames.Sorting) (p : Panel F) : List (Candle F) :=
  p.applyGroups S (Causal.map id).run

/-- The panel as a table of columns computed row by row. -/
def perRow (S : Frames.Sorting) (p : Panel F) (f : Candle F → Option (List (String × F))) :
    List (FeatureRow F) :=
  (p.ordered S).filterMap fun r => (f r).map fun values => ⟨r.symbol, r.date, values⟩

end Merge

section UpTo

variable {F : Type} [Floats F] {S : Frames.Sorting} {p : Panel F} {d : ℤ}
  {left left' right right' : List (FeatureRow F)} {missing names : List String}
  {t t' u u' : Table F} {f g : Candle F → Option (List (String × F))}

theorem mergeLeft_congr
    (h : ∀ r ∈ left, partner missing right r.symbol r.date = partner names right' r.symbol r.date) :
    mergeLeft missing left right = mergeLeft names left right' :=
  List.map_congr_left fun r hr => by rw [h r hr]

theorem filter_mergeLeft : (mergeLeft missing left right).filter (fun r => r.date ≤ d) =
    mergeLeft missing (left.filter fun r => r.date ≤ d) right := by
  rw [mergeLeft, mergeLeft, List.filter_map]
  rfl

theorem partner_upTo {symbol : String} {date : ℤ} (hd : date ≤ d) :
    partner missing (right.filter fun r => r.date ≤ d) symbol date =
      partner missing right symbol date := by
  have hfind : (right.filter fun b => b.date ≤ d).find?
      (fun b => b.symbol = symbol ∧ b.date = date) =
        right.find? fun b => b.symbol = symbol ∧ b.date = date :=
    Frames.find?_upTo fun b hb => (of_decide_eq_true hb).2 ▸ hd
  rw [partner, partner, hfind]

/-- A left merge of the rows up to a date needs the rows up to it. -/
theorem mergeLeft_upTo (hp : left'.Perm (left.filter fun r => r.date ≤ d)) :
    (mergeLeft missing left' (right.filter fun r => r.date ≤ d)).Perm
      ((mergeLeft missing left right).filter fun r => r.date ≤ d) := by
  have hcut : mergeLeft missing (left.filter fun r => r.date ≤ d)
      (right.filter fun r => r.date ≤ d) =
        mergeLeft missing (left.filter fun r => r.date ≤ d) right :=
    mergeLeft_congr fun r hr => partner_upTo (of_decide_eq_true (List.mem_filter.mp hr).2)
  rw [filter_mergeLeft, ← hcut]
  exact hp.map _

/-! ## Joins of frames -/

/-- What a join needs to know about its right side up to a date. -/
structure Table.Agree (d : ℤ) (t t' : Table F) : Prop where
  columns : t.columns = t'.columns
  cells : ∀ symbol, ∀ date ≤ d,
    partner t.columns t.rows symbol date = partner t'.columns t'.rows symbol date

theorem Table.Agree.symm (h : t.Agree d t') : t'.Agree d t :=
  ⟨h.columns.symm, fun symbol date hd => (h.cells symbol date hd).symm⟩

theorem Table.Agree.trans (h : t.Agree d t') (h' : t'.Agree d u) : t.Agree d u :=
  ⟨h.columns.trans h'.columns, fun symbol date hd =>
    (h.cells symbol date hd).trans (h'.cells symbol date hd)⟩

omit [Floats F] in
theorem FeatureRow.add_nil (r : FeatureRow F) : r.add [] = r := by
  rw [FeatureRow.add, List.append_nil]

theorem Table.join_eq (h : u.rows = [] → u.columns = []) :
    t.join u = ⟨t.columns ++ u.columns, mergeLeft u.columns t.rows u.rows⟩ := by
  unfold join
  split_ifs with hempty
  · have hrows := List.isEmpty_iff.mp hempty
    rw [h hrows, hrows, List.append_nil]
    have hid : mergeLeft [] t.rows [] = t.rows := by
      calc mergeLeft [] t.rows []
          = t.rows.map fun r => r.add [] := rfl
        _ = t.rows.map id := List.map_congr_left fun r _ => r.add_nil
        _ = t.rows := List.map_id _
    rw [hid]
  · rfl

theorem Table.columns_join (h : u.rows = [] → u.columns = []) :
    (t.join u).columns = t.columns ++ u.columns := by rw [join_eq h]

theorem Table.join_upTo (hu : u.rows = [] → u.columns = []) (hu' : u'.rows = [] → u'.columns = [])
    (h : u'.Agree d u) : (t.upTo d).join u' = (t.join u).upTo d := by
  rw [join_eq hu, join_eq hu', h.columns, upTo, upTo, filter_mergeLeft]
  congr 1
  refine mergeLeft_congr fun r hr => ?_
  rw [← h.cells r.symbol r.date (of_decide_eq_true (List.mem_filter.mp hr).2), h.columns]

theorem Table.Perm.join (hu : u.rows = [] → u.columns = []) (h : t.Perm t') :
    (t.join u).Perm (t'.join u) := by
  rw [join_eq hu, join_eq hu]
  exact ⟨by rw [h.columns], h.rows.map _⟩

omit [Floats F] in
theorem Table.Perm.of_eq (h : t = t') : t.Perm t' := h ▸ ⟨rfl, .refl _⟩

omit [Floats F] in
theorem Table.Perm.trans (h : t.Perm t') (h' : t'.Perm u) : t.Perm u :=
  ⟨h.columns.trans h'.columns, h.rows.trans h'.rows⟩

omit [Floats F] in
theorem Table.concat_empty (h : (concat names right).rows = []) :
    (concat names right).columns = [] := if_pos (List.isEmpty_iff.mpr h)

omit [Floats F] in
theorem Table.columns_concat : (concat names right).columns = [] ∨
    (concat names right).columns = names := by
  unfold concat
  split_ifs
  · exact .inl rfl
  · exact .inr rfl

theorem Table.agree_concat (hcols : (concat names right').columns = (concat names right).columns)
    (h : ∀ symbol, ∀ date ≤ d,
      partner names right' symbol date = partner names right symbol date) :
    (concat names right').Agree d (concat names right) := by
  refine ⟨hcols, fun symbol date hd => ?_⟩
  have hpartner : (concat names right).columns = names →
      partner (concat names right').columns right' symbol date =
        partner (concat names right).columns right symbol date := by
    intro hall
    rw [hcols, hall]
    exact h symbol date hd
  have hempty : ∀ rows : List (FeatureRow F), (concat names rows).columns = [] →
      rows = [] ∨ names = [] := by
    intro rows hnone
    cases rows with
    | nil => exact .inl rfl
    | cons b rows => exact .inr hnone
  have hcases : (concat names right).columns = [] ∨ (concat names right).columns = names :=
    columns_concat
  rcases hcases with hnone | hall
  · rcases hempty right hnone with rfl | rfl
    · rcases hempty right' (hcols.trans hnone) with rfl | rfl
      · rfl
      · exact hpartner hnone
    · exact hpartner hnone
  · exact hpartner hall

/-! ## Frames derived from the panel -/

omit [Floats F] in
theorem ordered_upTo : (p.upTo d).ordered S = (p.ordered S).filter fun r => r.date ≤ d :=
  Frames.applyGroups_upTo p.keyed (.map id) Candle.date
    fun l => congrArg (List.map Candle.date) (List.map_id l)

omit [Floats F] in
theorem map_ordered_perm : ((p.ordered S).map fun r => (r.symbol, r.date)).Perm
    (p.rows.map fun r => (r.symbol, r.date)) :=
  Frames.map_applyGroups_perm p.keyed fun l => congrArg (List.map _) (List.map_id l)

omit [Floats F] in
theorem ordered_keyed : Frames.Keyed Candle.symbol Candle.date (p.ordered S) :=
  map_ordered_perm.nodup_iff.mpr p.keyed

theorem partner_perRow {symbol : String} {date : ℤ} :
    partner missing (perRow S p f) symbol date =
      (((p.ordered S).find? fun r => r.symbol = symbol ∧ r.date = date).bind f).getD
        (missing.map fun name => (name, nan)) := by
  have hkeyed : Frames.Keyed Candle.symbol Candle.date (p.ordered S) := ordered_keyed
  unfold partner perRow
  generalize p.ordered S = rows at hkeyed ⊢
  induction rows with
  | nil => rfl
  | cons r rows ih =>
    have ih := ih (List.nodup_cons.mp hkeyed).2
    by_cases hr : r.symbol = symbol ∧ r.date = date
    · rw [List.find?_cons_of_pos (by simpa using hr)]
      cases hf : f r with
      | some values =>
        rw [List.filterMap_cons_some (by rw [hf]; rfl),
          List.find?_cons_of_pos (by simpa using hr)]
        rw [Option.bind_some, hf, Option.getD_some]
      | none =>
        -- no other row has the symbol and the date
        have hnone : rows.find? (fun r => r.symbol = symbol ∧ r.date = date) = none := by
          refine List.find?_eq_none.mpr fun r' hr' h => ?_
          have hkey : (r'.symbol, r'.date) = (r.symbol, r.date) := by
            rw [hr.1, hr.2]
            exact Prod.ext (of_decide_eq_true h).1 (of_decide_eq_true h).2
          exact (List.nodup_cons.mp hkeyed).1 (List.mem_map.mpr ⟨r', hr', hkey⟩)
        rw [List.filterMap_cons_none (by rw [hf]; rfl), ih, hnone, Option.bind_some, hf]
        rfl
    · rw [List.find?_cons_of_neg (by simpa using hr), ← ih]
      cases hf : f r with
      | some values =>
        rw [List.filterMap_cons_some (by rw [hf]; rfl),
          List.find?_cons_of_neg (by simpa using hr)]
      | none => rw [List.filterMap_cons_none (by rw [hf]; rfl)]

/-- The columns of the rows up to a date, as long as they are derived in the same way there. -/
theorem partner_perRow_upTo {symbol : String} {date : ℤ} (hd : date ≤ d)
    (h : ∀ r : Candle F, r.date ≤ d → (f r).getD (missing.map fun name => (name, nan)) =
      (g r).getD (missing.map fun name => (name, nan))) :
    partner missing (perRow S (p.upTo d) f) symbol date =
      partner missing (perRow S p g) symbol date := by
  have hfind : ((p.upTo d).ordered S).find? (fun r => r.symbol = symbol ∧ r.date = date) =
      (p.ordered S).find? fun r => r.symbol = symbol ∧ r.date = date := by
    rw [ordered_upTo]
    exact Frames.find?_upTo fun r hr => (of_decide_eq_true hr).2 ▸ hd
  rw [partner_perRow, partner_perRow, hfind]
  cases hr : (p.ordered S).find? fun r => r.symbol = symbol ∧ r.date = date with
  | none => rfl
  | some r =>
    have hdate : r.symbol = symbol ∧ r.date = date := by simpa using List.find?_some hr
    exact h r (hdate.2.symm ▸ hd)

end UpTo

end QuantTrader.Features
