import QuantTrader.Features.Dataset
import QuantTrader.Validation.LabelLeak

/-! # Out of sample predictions

`run_market` labels the learning matrix with later returns, fits a model on the training
dates of each fold and predicts the rows of its test block. A purged fold predicts a row
from what is known by the end of the date of the row.
-/

namespace QuantTrader.Learning

open Features Floats
open Validation (Fold purgedWalkforward)

/-- A row of the matrix with its return over the next bars of its symbol. -/
structure Row (F : Type) where
  features : FeatureRow F
  fwdRet : F

def Row.date {F : Type} (r : Row F) : ℤ := r.features.date

/-- A row with the return standardised over its date. -/
structure Labeled (F : Type) extends Row F where
  label : F

structure Prediction (F : Type) where
  date : ℤ
  symbol : String
  pred : F
  fwdRet : F
  deriving DecidableEq

inductive Objective
  | regression
  | lambdarank
  deriving DecidableEq, Repr

/-- The models of LightGBM with the parameters of `_PARAMS`, by their seeds, and `pd.qcut` without
labels, which may raise. -/
structure Toolkit (F : Type) where
  ranker : ℕ → List (List (String × F)) → List ℕ → List ℕ → List (String × F) → F
  regressor : ℕ → List (List (String × F)) → List F → List (String × F) → F
  qcut : List ℕ → ℕ → Option (List (Option ℕ))

/-- The arguments of `run_market`. -/
structure Config where
  market : Market
  horizon : ℕ
  seeds : ℕ
  folds : ℤ
  objective : Objective
  fundamentals : Bool := true
  useMacro : Bool := false
  inst13f : Bool := true
  sector : Bool := true
  krMicro : Bool := false
  /-- What `purged_walkforward` takes by default. -/
  embargo : ℕ := 5
  minTrain : ℕ := 252

/-- The flags that `run_market` hands on. -/
def Config.options (cfg : Config) : Options where
  fundamentals := cfg.fundamentals
  useMacro := cfg.useMacro
  inst13f := cfg.inst13f
  sector := cfg.sector
  krMicro := cfg.krMicro

section Pipeline

variable {F : Type} [Floats F]

/-! ## Labels -/

/-- `s.shift(-horizon) / s - 1` beside the candles of a symbol. -/
def forward (horizon : ℕ) (l : List (Candle F)) : List (Candle F × F) :=
  l.mapIdx fun i c => (c, (l[i + horizon]?).elim nan Candle.close / c.close - ofRat 1)

/-- `fwd_ret` of a symbol at a date. -/
def fwdRet (S : Frames.Sorting) (horizon : ℕ) (p : Panel F) (symbol : String) (date : ℤ) : F :=
  ((forward horizon (p.bars S symbol)).find? fun e => e.1.date = date).elim nan Prod.snd

def groupStd (xs : List F) : F :=
  let vals := xs.filter fun x => !isNan x
  if vals.length < 2 then nan else std vals

def matrix (S : Frames.Sorting) (cfg : Config) (p : Panel F) (feats : Table F) : List (Row F) :=
  feats.rows.map fun r => ⟨r, fwdRet S cfg.horizon p r.symbol r.date⟩

/-- The label of each row, among the rows of its date. -/
def withLabels (rows : List (Row F)) : List (Labeled F) :=
  rows.map fun r =>
    let day := (rows.filter fun r' => r'.date = r.date).map Row.fwdRet
    ⟨r, (r.fwdRet - groupMean day) / (groupStd day + ofRat (1 / 10 ^ 12))⟩

/-- `feats.dropna(subset=["label"])`. -/
def labeled (rows : List (Row F)) : List (Labeled F) :=
  (withLabels rows).filter fun r => !isNan r.label

/-! ## Models -/

/-- `_BUCKETS`. -/
def buckets : ℕ := 8

/-- `s.rank(method="first")`. -/
def rankFirst (s : List F) : List ℕ :=
  s.mapIdx fun i x => s.countP (fun y => lt y x) +
    (s.take i).countP (fun y => !lt y x && !lt x y) + 1

/-- The grades of the returns of one date. -/
def grades (kit : Toolkit F) (s : List F) : List (Option ℕ) :=
  (kit.qcut (rankFirst s) (min buckets (max 2 s.length))).getD (s.map fun _ => some 0)

/-- `_rank_labels`: each row with its grade among the rows of its date. -/
def rankLabels (kit : Toolkit F) (t : List (Labeled F)) : List (Labeled F × Option ℕ) :=
  t.mapIdx fun i r =>
    let day := (t.filter fun r' => r'.date = r.date).map (·.fwdRet)
    (r, ((grades kit day)[(t.take i).countP fun r' => r'.date = r.date]?).join)

def select (cols : List String) (r : FeatureRow F) : List (String × F) :=
  cols.map fun name => (name, r.get name)

/-- `_fit_predict`: the mean prediction of the seeds for a row. -/
def fitPredict (S : Frames.Sorting) (kit : Toolkit F) (cfg : Config) (cols : List String)
    (tr : List (Labeled F)) (row : FeatureRow F) : F :=
  let t := (S.sort (fun r : Labeled F => r.date) tr).filter fun r => !isNan r.fwdRet
  let graded := (rankLabels kit t).filterMap fun e => e.2.map fun y => (e.1, y)
  let sizes := (Frames.groupKeys (fun e : Labeled F × ℕ => e.1.date) graded).map fun d =>
    graded.countP fun e => e.1.date = d
  let model : ℕ → List (String × F) → F :=
    match cfg.objective with
    | .lambdarank => fun seed =>
      kit.ranker seed (graded.map fun e => select cols e.1.features) (graded.map Prod.snd) sizes
    | .regression => fun seed =>
      kit.regressor seed (tr.map fun e => select cols e.features) (tr.map fun e => e.label)
  (List.range cfg.seeds).foldl (fun acc seed => acc + model seed (select cols row)) (ofRat 0) /
    ofRat cfg.seeds

/-! ## Folds -/

/-- The predictions of a fold, none without rows to train on. -/
def foldPredictions (S : Frames.Sorting) (kit : Toolkit F) (cfg : Config) (cols : List String)
    (feats : List (Labeled F)) (f : Fold) : List (Prediction F) :=
  let tr := feats.filter fun r => r.date ∈ f.train
  let te := feats.filter fun r => r.date ∈ f.testStart :: f.rest
  if tr.isEmpty then []
  else te.map fun r =>
    ⟨r.date, r.features.symbol, fitPredict S kit cfg cols tr r.features, r.fwdRet⟩

/-- The folds of the dates with labels. -/
def foldsOf (cfg : Config) (feats : List (Labeled F)) : Except String (List Fold) :=
  purgedWalkforward (feats.map (·.date)) cfg.folds cfg.horizon cfg.embargo cfg.minTrain

/-- `run_market`, the predictions. -/
def runMarket (S : Frames.Sorting) (kit : Toolkit F) (cfg : Config) (x : Inputs F) :
    Except String (List (Prediction F)) := do
  let data ← buildDataset S cfg.market cfg.options x
  let feats := labeled (matrix S cfg x.panel data)
  let folds ← foldsOf cfg feats
  let oof := folds.flatMap (foldPredictions S kit cfg data.columns feats)
  if oof.isEmpty then throw "No objects to concatenate" else return oof

end Pipeline

/-! ## What a fold knows -/

section UpTo

variable {F : Type} [Floats F] {S : Frames.Sorting} {kit : Toolkit F} {cfg : Config} {x : Inputs F}
  {p : Panel F} {f : Fold} {folds : List Fold} {symbol : String} {date d : ℤ} {horizon : ℕ}
  {rows : List (Row F)} {data known : Table F}

/-- Every candle of a training date whose return has a later candle has it before the test block. -/
def Purged (S : Frames.Sorting) (horizon : ℕ) (p : Panel F) (f : Fold) : Prop :=
  ∀ r ∈ p.rows, ∀ e ∈ (p.bars S r.symbol).zip ((p.bars S r.symbol).drop horizon),
    e.1.date ∈ f.train → e.2.date < f.testStart

instance : Decidable (Purged S horizon p f) := by
  unfold Purged
  infer_instance

omit [Floats F] in
theorem Purged.lt (h : Purged S horizon p f) {i : ℕ} {c later : Candle F}
    (hc : (p.bars S symbol)[i]? = some c) (hlater : (p.bars S symbol)[i + horizon]? = some later)
    (hdate : c.date ∈ f.train) : later.date < f.testStart := by
  obtain ⟨hrow, rfl⟩ := Frames.mem_group.mp (List.mem_of_getElem? hc)
  refine h c hrow (c, later) (List.mem_of_getElem? (i := i) ?_) hdate
  rw [List.getElem?_zip_eq_some, List.getElem?_drop, Nat.add_comm horizon i]
  exact ⟨hc, hlater⟩

omit [Floats F] in
theorem bars_upTo : (p.upTo d).bars S symbol = (p.bars S symbol).filter fun c => c.date ≤ d :=
  Frames.group_upTo p.keyed

omit [Floats F] in
theorem bars_split (S : Frames.Sorting) (p : Panel F) (symbol : String) (d : ℤ) :
    ∃ later, p.bars S symbol = (p.upTo d).bars S symbol ++ later ∧ ∀ c ∈ later, d < c.date := by
  refine ⟨(p.bars S symbol).filter fun c => !decide (c.date ≤ d), ?_, ?_⟩
  · rw [bars_upTo, Frames.filter_append_filter]
    refine Frames.group_pairwise.imp fun hab hb => ?_
    exact decide_eq_true (hab.trans (of_decide_eq_true hb))
  · intro c hc
    simpa using (List.mem_filter.mp hc).2

/-- The return of a training date is known when the test block begins. -/
theorem fwdRet_upTo (h : Purged S horizon p f) (hd : f.testStart ≤ d) (hdate : date ∈ f.train)
    (hle : date ≤ d) :
    fwdRet S horizon (p.upTo d) symbol date = fwdRet S horizon p symbol date := by
  obtain ⟨later, hbars, hlater⟩ := bars_split S p symbol d
  have hread : ∀ i c later, (p.bars S symbol)[i]? = some c →
      (p.bars S symbol)[i + horizon]? = some later → c.date ∈ f.train → later.date < f.testStart :=
    fun _ _ _ => h.lt
  unfold fwdRet
  rw [hbars] at hread ⊢
  generalize (p.upTo d).bars S symbol = l at hread ⊢
  have hnone : ∀ g : ℕ → Candle F → F,
      (later.mapIdx fun i c => (c, g i c)).find? (fun e => e.1.date = date) = none := by
    intro g
    refine List.find?_eq_none.mpr fun e he => ?_
    obtain ⟨i, hi, rfl⟩ := List.mem_mapIdx.mp he
    have := hlater _ (List.getElem_mem hi)
    simp
    omega
  have hsame : Option.Rel (fun e e' => e.1 = e'.1 ∧ (e.1.date = date → e.2 = e'.2))
      ((forward horizon l).find? fun e => e.1.date = date)
      ((forward horizon (l ++ later)).find? fun e => e.1.date = date) := by
    unfold forward
    rw [List.mapIdx_append, List.find?_append, hnone, Option.or_none]
    refine Validation.find?_rel _ _ (List.forall₂_iff_get.mpr ⟨by simp, fun i hi hi' => ?_⟩) ?_
    · simp only [List.length_mapIdx] at hi
      simp only [List.get_eq_getElem, List.getElem_mapIdx, true_and]
      intro hi'
      have hsome : (l ++ later)[i]? = some l[i] := by
        rw [List.getElem?_append_left hi, List.getElem?_eq_getElem hi]
      rw [show l[i + horizon]? = (l ++ later)[i + horizon]? from ?_]
      rcases Nat.lt_or_ge (i + horizon) l.length with hlt | hge
      · rw [List.getElem?_append_left hlt]
      · rw [List.getElem?_eq_none hge]
        cases hlast : (l ++ later)[i + horizon]? with
        | none => rfl
        | some c =>
          -- a candle of later than `d` that a training date reads
          rw [List.getElem?_append_right hge] at hlast
          have hlt := hread i _ c hsome (by rw [List.getElem?_append_right hge, hlast])
            (hi' ▸ hdate)
          have := hlater c (List.mem_of_getElem? hlast)
          omega
    · rintro e e' ⟨he, -⟩
      rw [he]
  have hfound : ∀ e ∈ (forward horizon l).find? fun e => e.1.date = date, e.1.date = date :=
    fun e he => of_decide_eq_true (List.find?_some he :)
  generalize (forward horizon l).find? _ = o at hsame hfound ⊢
  generalize (forward horizon (l ++ later)).find? _ = o' at hsame ⊢
  cases hsame with
  | none => rfl
  | some he => exact he.2 (hfound _ rfl)

/-- The rows of the training dates of a fold are there when its test block begins. -/
theorem matrix_upTo (h : Purged S cfg.horizon p f) (hd : f.testStart ≤ d)
    (htrain : ∀ t ∈ f.train, t ≤ d) (hknown : known.Perm (data.upTo d)) :
    ((matrix S cfg (p.upTo d) known).filter fun r => r.date ∈ f.train).Perm
      ((matrix S cfg p data).filter fun r => r.date ∈ f.train) := by
  have hcut : (data.upTo d).rows.filter (fun r => r.date ∈ f.train) =
      data.rows.filter fun r => r.date ∈ f.train := by
    rw [Table.upTo, List.filter_filter]
    refine List.filter_congr fun r _ => ?_
    by_cases hr : r.date ∈ f.train
    · simp [hr, htrain _ hr]
    · simp [hr]
  have hrows := hknown.rows.filter fun r => r.date ∈ f.train
  rw [hcut] at hrows
  rw [matrix, matrix, List.filter_map, List.filter_map]
  refine (hrows.map _).trans (.of_eq (List.map_congr_left fun r hr => ?_))
  have hdate : r.date ∈ f.train := of_decide_eq_true (List.mem_filter.mp hr).2
  exact congrArg (Row.mk r) (fwdRet_upTo h hd hdate (htrain _ hdate))

theorem withLabels_filter (q : ℤ → Bool) :
    withLabels (rows.filter fun r => q r.date) = (withLabels rows).filter fun r => q r.date := by
  rw [withLabels, withLabels, List.filter_map]
  refine List.map_congr_left fun r hr => ?_
  have hq := (List.mem_filter.mp hr).2
  have hday : (rows.filter fun r => q r.date).filter (fun r' => r'.date = r.date) =
      rows.filter fun r' => r'.date = r.date := by
    rw [List.filter_filter]
    refine List.filter_congr fun r' _ => ?_
    by_cases hr' : r'.date = r.date
    · simp [hr', hq]
    · simp [hr']
  simp only [hday]

theorem labeled_filter (q : ℤ → Bool) :
    labeled (rows.filter fun r => q r.date) = (labeled rows).filter fun r => q r.date := by
  rw [labeled, labeled, withLabels_filter, List.filter_comm]

theorem features_mem {r : Labeled F} (hr : r ∈ labeled (matrix S cfg p data)) :
    r.features ∈ data.rows := by
  obtain ⟨row, hrow, rfl⟩ := List.mem_map.mp (List.mem_of_mem_filter hr)
  obtain ⟨values, hvalues, rfl⟩ := List.mem_map.mp hrow
  exact hvalues

theorem sublist_of_mem_splitLengths {α : Type*} {sizes : List ℕ} {l block : List α}
    (h : block ∈ sizes.splitLengths l) : block.Sublist l := by
  induction sizes generalizing l with
  | nil => cases h
  | cons n sizes ih =>
    rw [List.splitLengths_cons] at h
    rcases List.mem_cons.mp h with rfl | h
    · exact List.take_sublist n l
    · exact (ih h).trans (List.drop_sublist n l)

/-- Where the dates of a fold of `run_market` lie. -/
theorem fold_dates {dates : List ℤ} {nSplits : ℤ} {embargo minTrain : ℕ}
    (hfolds : purgedWalkforward dates nSplits horizon embargo minTrain = .ok folds)
    (hf : f ∈ folds) :
    (∀ t ∈ f.train, t < f.testStart) ∧ ∀ t ∈ f.rest, f.testStart ≤ t := by
  obtain ⟨hblk, hcut, htrain⟩ := (Validation.mem_purgedWalkforward_iff hfolds).mp hf
  have hsorted := Validation.sortedSet_pairwise dates
  constructor
  · intro t ht
    have h0 : 0 ≤ Validation.cut (Validation.sortedSet dates) horizon embargo f.testStart := by
      omega
    rw [htrain, Validation.sliceTo, if_pos h0] at ht
    obtain ⟨i, hi, rfl⟩ := List.mem_take_iff_getElem.mp ht
    rw [Validation.cut, Validation.searchsorted] at hi
    have hlt : i < (Validation.sortedSet dates).findIdx (f.testStart ≤ ·) := by omega
    simpa using List.not_of_lt_findIdx hlt
  · have hsub : (f.testStart :: f.rest).Sublist (Validation.sortedSet dates) :=
      (sublist_of_mem_splitLengths hblk).trans (List.drop_sublist _ _)
    exact fun t ht => ((List.pairwise_cons.mp (hsorted.sublist hsub)).1 t ht).le

theorem eq_of_runMarket {oof : List (Prediction F)}
    (hdata : buildDataset S cfg.market cfg.options x = .ok data)
    (hfolds : foldsOf cfg (labeled (matrix S cfg x.panel data)) = .ok folds)
    (hrun : runMarket S kit cfg x = .ok oof) :
    oof = folds.flatMap
      (foldPredictions S kit cfg data.columns (labeled (matrix S cfg x.panel data))) := by
  unfold runMarket at hrun
  rw [hdata] at hrun
  change (foldsOf cfg (labeled (matrix S cfg x.panel data))).bind _ = _ at hrun
  rw [hfolds] at hrun
  change (if _ then throw _ else return _) = _ at hrun
  split_ifs at hrun
  cases hrun
  rfl

/-- A prediction of a purged fold is the one of a model fitted on the training rows, in some order,
of a features row, both as they are known by the end of the date of the prediction. -/
theorem runMarket_upTo {oof : List (Prediction F)}
    (hdata : buildDataset S cfg.market cfg.options x = .ok data)
    (hfolds : foldsOf cfg (labeled (matrix S cfg x.panel data)) = .ok folds)
    (hrun : runMarket S kit cfg x = .ok oof)
    (hpurged : ∀ f ∈ folds, Purged S cfg.horizon x.panel f) {e : Prediction F} (he : e ∈ oof)
    (hx : x.Settled S cfg.market cfg.options e.date)
    (hcols : (buildDataset S cfg.market cfg.options (x.upTo cfg.market e.date)).map Table.columns =
      .ok data.columns) :
    ∃ known, buildDataset S cfg.market cfg.options (x.upTo cfg.market e.date) = .ok known ∧
      ∃ f ∈ folds, ∃ train, ∃ row ∈ known.rows,
        train.Perm ((matrix S cfg (x.panel.upTo e.date) known).filter fun r => r.date ∈ f.train) ∧
          row.date = e.date ∧ row.symbol = e.symbol ∧
            e.pred = fitPredict S kit cfg known.columns (labeled train) row := by
  obtain ⟨known, hknown, hperm⟩ :=
    buildDataset_upTo S cfg.market cfg.options x e.date hx hdata hcols
  refine ⟨known, hknown, ?_⟩
  obtain rfl := eq_of_runMarket hdata hfolds hrun
  obtain ⟨f, hf, he⟩ := List.mem_flatMap.mp he
  obtain ⟨hbefore, hafter⟩ := fold_dates hfolds hf
  unfold foldPredictions at he
  dsimp only at he
  split_ifs at he with hempty
  · cases he
  obtain ⟨r, hr, rfl⟩ := List.mem_map.mp he
  obtain ⟨hmem, htest⟩ := List.mem_filter.mp hr
  have hstart : f.testStart ≤ r.date := by
    rcases List.mem_cons.mp (of_decide_eq_true htest) with heq | hrest
    · exact heq.ge
    · exact hafter _ hrest
  refine ⟨f, hf, (matrix S cfg x.panel data).filter fun r => r.date ∈ f.train, r.features, ?_, ?_,
    rfl, rfl, ?_⟩
  · rw [hperm.rows.mem_iff, Table.upTo, List.mem_filter]
    exact ⟨features_mem hmem, decide_eq_true le_rfl⟩
  · exact (matrix_upTo (hpurged f hf) hstart (fun t ht => (hbefore t ht).le.trans hstart)
      hperm).symm
  · rw [labeled_filter fun t => t ∈ f.train, hperm.columns]
    rfl

end UpTo

section Demo

/-- Three American companies with filings, holdings and sectors. -/
def demoInputs : Inputs (Option ℚ) :=
  { Features.demoInputs with
    panel :=
      { rows := demoBars "AAPL" 1 demoDays ++ demoBars "MSFT" (-2) demoDays ++
          demoBars "NVDA" 3 demoDays
        keyed := by unfold Frames.Keyed; decide +kernel }
    facts := fun symbol =>
      if symbol = "AAPL" then
        [⟨.shares, 0, 2, 0, 10⟩, ⟨.equity, 0, 2, 0, 500⟩, ⟨.shares, 10, 15, 0, 12⟩]
      else []
    holdings :=
      { rows := [⟨"MSFT", -90, some 7, some 700⟩, ⟨"MSFT", 0, some 8, some 900⟩]
        keyed := by unfold Frames.Keyed; decide +kernel }
    sector := fun symbol => if symbol = "NVDA" then some "36" else some "73" }

def demoConfig : Config where
  market := .us
  horizon := 2
  seeds := 2
  folds := 2
  objective := .regression
  embargo := 1
  minTrain := 4

/-- Each label counts as much as its row is like the row that is predicted. -/
def demoKit : Toolkit (Option ℚ) where
  ranker _ _ _ _ _ := none
  regressor _ xs ys row :=
    Floats.sum (List.zipWith (fun x y => y * Floats.sum
      (List.zipWith (fun a b => a.2 * b.2) x row)) xs ys)
  qcut _ _ := none

/-- The second block of five days; the first has too few days before it, and the last two days
have no label. -/
def demoFold : Fold := ⟨[0, 1, 2, 3, 4, 5], 9, [10, 11, 12, 13]⟩

/-- What a date knows of the demo. -/
def demoKnown (d : ℤ) : Inputs (Option ℚ) := demoInputs.upTo demoConfig.market d

theorem runMarket_upTo_demo : ∃ oof e,
    runMarket .insertion demoKit demoConfig demoInputs = .ok oof ∧ e ∈ oof ∧ e.date = 11 ∧
      e.symbol = "MSFT" ∧
    ∃ known,
      buildDataset .insertion demoConfig.market demoConfig.options (demoKnown 11) = .ok known ∧
      ∃ f ∈ [demoFold], ∃ train, ∃ row ∈ known.rows,
        train.Perm ((matrix .insertion demoConfig (demoInputs.panel.upTo 11) known).filter
          fun r => r.date ∈ f.train) ∧
          row.date = 11 ∧ row.symbol = "MSFT" ∧ e.pred =
            fitPredict .insertion demoKit demoConfig known.columns (labeled train) row := by
  have hcols : (buildDataset .insertion demoConfig.market demoConfig.options
      (demoKnown 11)).map Table.columns =
        (buildDataset .insertion demoConfig.market demoConfig.options demoInputs).map
          Table.columns := by
    decide +kernel
  have hfolds : (buildDataset .insertion demoConfig.market demoConfig.options demoInputs).bind
      (fun data => foldsOf demoConfig (labeled
        (matrix .insertion demoConfig demoInputs.panel data))) = .ok [demoFold] := by
    decide +kernel
  have hpred : (runMarket .insertion demoKit demoConfig demoInputs).toOption.bind
      (fun oof => oof[7]?.map fun e => (e.date, e.symbol)) = some (11, "MSFT") := by
    decide +kernel
  have hpurged : ∀ f ∈ [demoFold], Purged .insertion demoConfig.horizon demoInputs.panel f := by
    decide +kernel
  have hsettled : demoInputs.Settled .insertion demoConfig.market demoConfig.options 11 := by
    refine ⟨fun _ symbol => ⟨?_, .inl Frames.Sorting.insertion_stable⟩, nofun⟩
    by_cases hsymbol : symbol = "AAPL"
    · rw [hsymbol]
      unfold Fundamentals.Forward
      decide +kernel
    · simp [demoInputs, hsymbol, Fundamentals.Forward, Fundamentals.quarters]
  cases hdata : buildDataset .insertion demoConfig.market demoConfig.options demoInputs with
  | error e =>
    rw [hdata] at hfolds
    cases hfolds
  | ok data =>
    rw [hdata] at hcols hfolds
    cases hrun : runMarket .insertion demoKit demoConfig demoInputs with
    | error e =>
      rw [hrun] at hpred
      cases hpred
    | ok oof =>
      rw [hrun, Except.toOption, Option.bind_some] at hpred
      obtain ⟨e, he, hkey⟩ := Option.map_eq_some_iff.mp hpred
      obtain ⟨hdate, hsymbol⟩ := Prod.mk.inj hkey
      have hknown := runMarket_upTo (e := e) hdata hfolds hrun hpurged (List.mem_of_getElem? he)
        (hdate ▸ hsettled) (hdate ▸ hcols)
      rw [hdate, hsymbol] at hknown
      exact ⟨oof, e, rfl, List.mem_of_getElem? he, hdate, hsymbol, hknown⟩

end Demo

end QuantTrader.Learning
