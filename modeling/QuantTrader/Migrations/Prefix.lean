import QuantTrader.Migrations.Boot

/-! # Migrations as a prefix

After any boots the recorded versions are an initial part of the files. Postgres
has exactly their effect; in ClickHouse every statement of a recorded file was
carried out before the file was recorded.
-/

namespace QuantTrader.Migrations

open Transition

variable {σ α : Type} {d : Deployment σ} {faults : Faults} {data₀ : σ} {files : List Migration}
  {A B : Postgres σ → Prop} {C D : List Entry → Prop}

/-- The statements of a text, one after another. -/
def Deployment.apply (d : Deployment σ) (sql : String) (data : σ) : Option σ :=
  (statements d.unicode sql).foldlM (fun data stmt => d.exec stmt data) data

/-- The data that the files lead to, each applied once and in order, with repairs between them. -/
inductive Effect (d : Deployment σ) (data₀ : σ) : List Migration → σ → Prop
  | start : Effect d data₀ [] data₀
  | file {files : List Migration} {data data' : σ} (m : Migration) :
      Effect d data₀ files data → d.apply m.2.text data = some data' →
      Effect d data₀ (files ++ [m]) data'
  | repair {files : List Migration} {data data' : σ} :
      Effect d data₀ files data → d.apply d.repair data = some data' → Effect d data₀ files data'

/-- The recorded files are these, and the data is their effect. -/
def MigratedTo (d : Deployment σ) (data₀ : σ) (files : List Migration) (p : Postgres σ) : Prop :=
  p.recorded = files.map Migration.record ∧ Effect d data₀ files p.data

/-- An initial part of the files is recorded and has its effect. -/
def Migrated (d : Deployment σ) (data₀ : σ) (files : List Migration) (p : Postgres σ) : Prop :=
  ∃ k, MigratedTo d data₀ (files.take k) p

/-- Every statement of a recorded file was carried out before. -/
def Justified (u : Unicode) (files : List Migration) (journal : List Entry) : Prop :=
  ∀ before row after, journal = before ++ .record row :: after →
    ∃ m ∈ files, m.record = row ∧ ∀ stmt ∈ statements u m.2.text, .statement stmt ∈ before

def MigratedClickhouse (u : Unicode) (files : List Migration) (journal : List Entry) : Prop :=
  (∃ k, recorded journal = (files.take k).map Migration.record) ∧ Justified u files journal

/-! ## Rules for the statements -/

theorem send_triple {effect : World σ → Option (World σ)} {P : World σ → Prop}
    {Q : Unit → World σ → Prop} {E : World σ → Prop}
    (hfail : ∀ w, P w → E { w with issued := w.issued + 1 })
    (hdone : ∀ w w', P w → effect { w with issued := w.issued + 1 } = some w' → Q () w' ∧ E w') :
    Triple P (send faults effect) Q E := by
  intro w hw
  unfold send
  cases heffect : effect { w with issued := w.issued + 1 } with
  | none =>
    have hE := hfail w hw
    cases hfault : faults w.issued with
    | none => simpa only [hfault, heffect]
    | some done => simpa only [hfault, heffect, Option.getD_none, ite_self]
  | some w' =>
    obtain ⟨hQ, hE⟩ := hdone w w' hw heffect
    cases hfault : faults w.issued with
    | none => simpa only [hfault, heffect]
    | some done => cases done with
      | true => simpa only [hfault, heffect]
      | false =>
        simp only [Bool.false_eq_true, if_false]
        exact hfail w hw

theorem onPostgres_triple {op : Postgres σ → Option (Postgres σ)}
    (h : ∀ p p', A p → op p = some p' → B p') :
    Triple (fun w => A w.postgres ∧ C w.clickhouse) (onPostgres faults op)
      (fun _ w => B w.postgres ∧ C w.clickhouse) fun w => C w.clickhouse := by
  apply send_triple
  · exact fun w hw => hw.2
  · rintro w w' ⟨hA, hC⟩ heffect
    obtain ⟨p, hp, rfl⟩ := Option.map_eq_some_iff.mp heffect
    exact ⟨⟨h _ _ hA hp, hC⟩, hC⟩

theorem onClickhouse_triple {entry : Entry} {E : List Entry → Prop}
    (hfail : ∀ journal, C journal → E journal)
    (hdone : ∀ journal, C journal → D (journal ++ [entry]) ∧ E (journal ++ [entry])) :
    Triple (fun w => A w.postgres ∧ C w.clickhouse) (onClickhouse faults entry)
      (fun _ w => A w.postgres ∧ D w.clickhouse) fun w => A w.postgres ∧ E w.clickhouse := by
  apply send_triple
  · exact fun w hw => ⟨hw.1, hfail _ hw.2⟩
  · rintro w w' ⟨hA, hC⟩ heffect
    obtain rfl := Option.some.inj heffect
    exact ⟨⟨hA, (hdone _ hC).1⟩, hA, (hdone _ hC).2⟩

theorem ofExcept_triple {x : Except String α} {P : World σ → Prop} {E : World σ → Prop}
    (h : ∀ w, P w → E w) : Triple P (ofExcept x) (fun a w => x = .ok a ∧ P w) E := by
  cases x with
  | ok a => exact Triple.pure a fun w hw => ⟨rfl, hw⟩
  | error message => exact Triple.throw _ h

/-- A transaction that raises leaves Postgres as it was. -/
theorem connection_triple {body : Db σ α}
    (h : ∀ p, A p → Triple (fun w => w.postgres = p ∧ C w.clickhouse) body
      (fun _ w => A w.postgres ∧ C w.clickhouse) fun w => C w.clickhouse) :
    Triple (fun w => A w.postgres ∧ C w.clickhouse) (connection faults body)
      (fun _ w => A w.postgres ∧ C w.clickhouse) fun w => A w.postgres ∧ C w.clickhouse := by
  have hguard : Triple (fun w => A w.postgres ∧ C w.clickhouse) (guarded undo body)
      (fun _ w => A w.postgres ∧ C w.clickhouse) fun w => A w.postgres ∧ C w.clickhouse := by
    apply Triple.guarded
    rintro w ⟨hA, hC⟩
    apply (h w.postgres hA).imp
    · rintro _ rfl
      exact ⟨rfl, hC⟩
    · exact fun _ _ hw => hw
    · exact fun _ hw => ⟨hA, hw⟩
  rintro w ⟨hA, hC⟩
  have hrun := hguard w ⟨hA, hC⟩
  unfold connection
  cases hbody : guarded undo body w with
  | error e w' =>
    rw [hbody] at hrun
    exact hrun
  | ok a w' =>
    rw [hbody] at hrun
    cases hfault : faults w'.issued with
    | none => simpa only [hfault]
    | some done => cases done with
      | true => simpa only [hfault]
      | false => simpa only [hfault] using ⟨hA, hrun.2⟩

/-! ## The loops over the files -/

section Loop

variable {pre post : List Migration} {m : Migration} {k : ℕ}

theorem version_mem_take_iff (hsorted : (pre ++ m :: post).Pairwise fun m n => m.1 < n.1) :
    m.1 ∈ ((pre ++ m :: post).take k).map Prod.fst ↔ pre.length < k := by
  constructor
  · intro hmem
    by_contra hle
    obtain ⟨n, hn, heq⟩ := List.mem_map.mp hmem
    rw [List.take_append_of_le_length (not_lt.mp hle)] at hn
    have hlt := (List.pairwise_append.mp hsorted).2.2 n (List.mem_of_mem_take hn) m
      List.mem_cons_self
    exact absurd heq hlt.ne
  · intro hlt
    apply List.mem_map_of_mem
    obtain ⟨j, rfl⟩ := Nat.exists_eq_add_of_lt hlt
    rw [show pre.length + j + 1 = pre.length + (j + 1) by omega, List.take_length_add_append,
      List.take_succ_cons]
    simp

/-- The recorded files after `pre`, when the first `k` were recorded before. -/
theorem take_max_of_lt (hlt : pre.length < k) :
    (pre ++ m :: post).take (max k (pre ++ [m]).length) =
      (pre ++ m :: post).take (max k pre.length) := by
  rw [List.length_append, List.length_singleton, max_eq_left hlt, max_eq_left hlt.le]

theorem take_max_of_le (hle : k ≤ pre.length) :
    (pre ++ m :: post).take (max k (pre ++ [m]).length) =
      (pre ++ m :: post).take (max k pre.length) ++ [m] := by
  rw [List.length_append, List.length_singleton, max_eq_right (hle.trans (Nat.le_succ _)),
    max_eq_right hle, List.take_left, ← List.singleton_append, ← List.append_assoc]
  exact List.take_left' (by simp)

end Loop

section Postgres

/-- The statements take the data of `p` to that of `q`, whose history is as it was. -/
def Carried (d : Deployment σ) (p : Postgres σ) (stmts : List (List Char)) (q : Postgres σ) : Prop :=
  stmts.foldlM (fun data stmt => d.exec stmt data) p.data = some q.data ∧
    q.schemaMigrations = p.schemaMigrations

theorem Carried.execute {p q q' : Postgres σ} {stmts : List (List Char)} {stmt : List Char}
    (h : Carried d p stmts q) (hq : execute d stmt q = some q') :
    Carried d p (stmts ++ [stmt]) q' := by
  obtain ⟨data, hexec, rfl⟩ := Option.map_eq_some_iff.mp hq
  refine ⟨?_, h.2⟩
  rw [List.foldlM_append, h.1]
  simp [hexec]

theorem executeAll_triple (p : Postgres σ) (sql : String) :
    Triple (fun w => w.postgres = p ∧ C w.clickhouse) (executeAll d faults sql)
      (fun _ w => Carried d p (statements d.unicode sql) w.postgres ∧ C w.clickhouse)
      fun w => C w.clickhouse := by
  have hloop : Triple (fun w => Carried d p [] w.postgres ∧ C w.clickhouse)
      (executeAll d faults sql)
      (fun _ w => Carried d p (statements d.unicode sql) w.postgres ∧ C w.clickhouse)
      fun w => C w.clickhouse := by
    apply Triple.foldlM (I := fun pre _ (w : World σ) => Carried d p pre w.postgres ∧ C w.clickhouse)
    intro pre stmt _ _ _
    apply onPostgres_triple (A := Carried d p pre) (B := Carried d p (pre ++ [stmt]))
    exact fun _ _ => Carried.execute
  apply hloop.imp
  · rintro w ⟨rfl, hC⟩
    exact ⟨⟨rfl, rfl⟩, hC⟩
  · exact fun _ _ hw => hw
  · exact fun _ hw => hw

theorem transaction_triple {recorded : List Migration} (m : Migration) :
    Triple (fun w => MigratedTo d data₀ recorded w.postgres ∧ C w.clickhouse)
      (transaction do
        executeAll d faults m.2.text
        onPostgres faults (insertRecord m.record))
      (fun _ w => MigratedTo d data₀ (recorded ++ [m]) w.postgres ∧ C w.clickhouse)
      fun w => C w.clickhouse := by
  apply Triple.guarded
  rintro w ⟨⟨hrec, heff⟩, hC⟩
  apply Triple.bind (Q := fun _ w' =>
    Carried d w.postgres (statements d.unicode m.2.text) w'.postgres ∧ C w'.clickhouse)
  · apply (executeAll_triple w.postgres m.2.text).imp
    · rintro _ rfl
      exact ⟨rfl, hC⟩
    · exact fun _ _ hw => hw
    · exact fun _ hw => hw
  · intro _
    apply onPostgres_triple (A := Carried d w.postgres (statements d.unicode m.2.text))
      (B := MigratedTo d data₀ (recorded ++ [m]))
    rintro q q' ⟨hdata, hrows⟩ hq
    unfold insertRecord at hq
    split at hq
    · cases hq
    · next rows hsome =>
      split_ifs at hq
      obtain rfl := Option.some.inj hq
      refine ⟨?_, heff.file m hdata⟩
      rw [List.map_append, ← hrec, Postgres.recorded, Postgres.recorded, ← hrows, hsome]
      rfl

theorem applyPostgresFile_triple {pre post : List Migration} {m : Migration} {k : ℕ}
    (hsorted : (pre ++ m :: post).Pairwise fun m n => m.1 < n.1) (applied : List String) :
    Triple (fun w => MigratedTo d data₀ ((pre ++ m :: post).take (max k pre.length)) w.postgres ∧
        C w.clickhouse)
      (applyPostgresFile d faults (((pre ++ m :: post).take k).map Prod.fst) applied m)
      (fun _ w => MigratedTo d data₀ ((pre ++ m :: post).take (max k (pre ++ [m]).length)) w.postgres ∧
        C w.clickhouse)
      fun w => C w.clickhouse := by
  apply Triple.ite
  · intro hmem
    rw [take_max_of_lt ((version_mem_take_iff hsorted).mp hmem)]
    exact Triple.pure _ fun _ hw => hw
  · intro hmem
    rw [take_max_of_le (not_lt.mp (mt (version_mem_take_iff hsorted).mpr hmem))]
    apply (transaction_triple m).bind
    intro _
    exact Triple.pure _ fun _ hw => hw

theorem applyPostgresFiles_triple (hsorted : files.Pairwise fun m n => m.1 < n.1) (k : ℕ) :
    Triple (fun w => MigratedTo d data₀ (files.take k) w.postgres ∧ C w.clickhouse)
      (files.foldlM (applyPostgresFile d faults ((files.take k).map Prod.fst)) [])
      (fun _ w => MigratedTo d data₀ files w.postgres ∧ C w.clickhouse) fun w => C w.clickhouse := by
  have hloop : Triple
      (fun w => MigratedTo d data₀ (files.take (max k 0)) w.postgres ∧ C w.clickhouse)
      (files.foldlM (applyPostgresFile d faults ((files.take k).map Prod.fst)) [])
      (fun _ w => MigratedTo d data₀ (files.take (max k files.length)) w.postgres ∧ C w.clickhouse)
      fun w => C w.clickhouse := by
    apply Triple.foldlM (I := fun pre _ (w : World σ) =>
      MigratedTo d data₀ (files.take (max k pre.length)) w.postgres ∧ C w.clickhouse)
    rintro pre m post applied rfl
    exact applyPostgresFile_triple hsorted applied
  rw [max_eq_left (Nat.zero_le k), List.take_of_length_le (le_max_right k files.length)] at hloop
  exact hloop

theorem applyPostgres_triple (hfiles : migrationFiles d.unicode d.postgres = .ok files) (k : ℕ) :
    Triple (fun w => MigratedTo d data₀ (files.take k) w.postgres ∧ C w.clickhouse)
      (applyPostgres d faults)
      (fun _ w => MigratedTo d data₀ files w.postgres ∧ C w.clickhouse) fun w => C w.clickhouse := by
  apply Triple.bind (Q := fun _ w => MigratedTo d data₀ (files.take k) w.postgres ∧ C w.clickhouse)
  · apply onPostgres_triple
    rintro p p' hA hp
    obtain rfl := Option.some.inj hp
    exact hA
  intro _
  apply Triple.bind (Q := fun _ w => MigratedTo d data₀ (files.take k) w.postgres ∧ C w.clickhouse)
  · apply onPostgres_triple
    rintro p p' hA hp
    unfold selectVersions at hp
    split_ifs at hp
    obtain rfl := Option.some.inj hp
    exact hA
  intro _
  apply Triple.bind (Q := fun w' w => w'.postgres.recorded = (files.take k).map Migration.record ∧
    MigratedTo d data₀ (files.take k) w.postgres ∧ C w.clickhouse)
  · exact Triple.get fun w hw => ⟨hw.1.1, hw⟩
  intro w'
  apply Triple.assuming
  intro hrec
  apply (ofExcept_triple fun w hw => hw.2).bind
  intro files'
  apply Triple.assuming
  intro hok
  obtain rfl : files = files' := Except.ok.inj (hfiles.symm.trans hok)
  rw [hrec, List.map_map]
  exact applyPostgresFiles_triple (migrationFiles_sorted hfiles) k

theorem applyPostgresRepair_triple {recorded : List Migration} :
    Triple (fun w => MigratedTo d data₀ recorded w.postgres ∧ C w.clickhouse)
      (applyPostgresRepair d faults)
      (fun _ w => MigratedTo d data₀ recorded w.postgres ∧ C w.clickhouse) fun w => C w.clickhouse := by
  apply Triple.guarded
  rintro w ⟨⟨hrec, heff⟩, hC⟩
  apply (executeAll_triple w.postgres d.repair).imp
  · rintro _ rfl
    exact ⟨rfl, hC⟩
  · rintro _ w' ⟨⟨hdata, hrows⟩, hC'⟩
    refine ⟨⟨?_, heff.repair hdata⟩, hC'⟩
    rw [Postgres.recorded, hrows]
    exact hrec
  · exact fun _ hw => hw

end Postgres

section Clickhouse

variable {u : Unicode} {journal : List Entry} {m : Migration}

theorem recorded_snoc (journal : List Entry) (e : Entry) :
    recorded (journal ++ [e]) = recorded journal ++ e.row?.toList := by
  unfold recorded
  rw [List.filterMap_append]
  cases e <;> rfl

/-- A history row may follow once the statements of its file were carried out. -/
theorem Justified.snoc (h : Justified u files journal) {e : Entry}
    (he : ∀ row, e = .record row → ∃ m ∈ files, m.record = row ∧
      ∀ stmt ∈ statements u m.2.text, .statement stmt ∈ journal) :
    Justified u files (journal ++ [e]) := by
  intro before row after heq
  rcases List.eq_nil_or_concat after with rfl | ⟨after, e', rfl⟩
  · obtain ⟨rfl, hlast⟩ := List.append_inj' heq rfl
    obtain rfl := List.singleton_inj.mp hlast
    exact he row rfl
  · rw [List.concat_eq_append, ← List.cons_append, ← List.append_assoc] at heq
    obtain ⟨hjournal, -⟩ := List.append_inj' heq rfl
    exact h before row after hjournal

/-- The history is that of these files, each recorded after its statements. -/
def RecordedTo (u : Unicode) (files recorded' : List Migration) (journal : List Entry) : Prop :=
  recorded journal = recorded'.map Migration.record ∧ Justified u files journal

theorem RecordedTo.snoc {recorded' : List Migration} (h : RecordedTo u files recorded' journal)
    {e : Entry} (he : e.row? = none) : RecordedTo u files recorded' (journal ++ [e]) := by
  constructor
  · rw [recorded_snoc, he, h.1]
    exact List.append_nil _
  · apply h.2.snoc
    rintro row rfl
    cases he

theorem RecordedTo.record {recorded' : List Migration} (h : RecordedTo u files recorded' journal)
    (hm : m ∈ files) (hdone : ∀ stmt ∈ statements u m.2.text, .statement stmt ∈ journal) :
    RecordedTo u files (recorded' ++ [m]) (journal ++ [.record m.record]) := by
  constructor
  · rw [recorded_snoc, h.1, List.map_append]
    rfl
  · apply h.2.snoc
    rintro row heq
    exact ⟨m, hm, Entry.record.inj heq, hdone⟩

theorem RecordedTo.migrated {k : ℕ} (h : RecordedTo u files (files.take k) journal) :
    MigratedClickhouse u files journal := ⟨⟨k, h.1⟩, h.2⟩

theorem onClickhouse_other {k : ℕ} {e : Entry} (he : e.row? = none) :
    Triple (fun w => A w.postgres ∧ RecordedTo u files (files.take k) w.clickhouse)
      (onClickhouse faults e)
      (fun _ w => A w.postgres ∧ RecordedTo u files (files.take k) w.clickhouse)
      fun w => A w.postgres ∧ MigratedClickhouse u files w.clickhouse := by
  apply onClickhouse_triple
  · exact fun journal h => h.migrated
  · exact fun journal h => ⟨h.snoc he, (h.snoc he).migrated⟩

/-- Besides, these statements were carried out. -/
def Ran (u : Unicode) (files recorded' : List Migration) (stmts : List (List Char))
    (journal : List Entry) : Prop :=
  RecordedTo u files recorded' journal ∧ ∀ stmt ∈ stmts, .statement stmt ∈ journal

theorem Ran.snoc {recorded' : List Migration} {stmts : List (List Char)}
    (h : Ran u files recorded' stmts journal) (stmt : List Char) :
    Ran u files recorded' (stmts ++ [stmt]) (journal ++ [.statement stmt]) := by
  constructor
  · exact h.1.snoc rfl
  · intro stmt' hstmt
    rcases List.mem_append.mp hstmt with hstmt | hstmt
    · exact List.mem_append_left _ (h.2 stmt' hstmt)
    · obtain rfl := List.mem_singleton.mp hstmt
      exact List.mem_append_right _ (List.mem_singleton_self _)

theorem executeClickhouse_triple {k : ℕ} (stmts : List (List Char)) :
    Triple (fun w => A w.postgres ∧ RecordedTo u files (files.take k) w.clickhouse)
      (stmts.foldlM (fun _ stmt => onClickhouse faults (.statement stmt)) ())
      (fun _ w => A w.postgres ∧ Ran u files (files.take k) stmts w.clickhouse)
      fun w => A w.postgres ∧ MigratedClickhouse u files w.clickhouse := by
  have hloop : Triple (fun w => A w.postgres ∧ Ran u files (files.take k) [] w.clickhouse)
      (stmts.foldlM (fun _ stmt => onClickhouse faults (.statement stmt)) ())
      (fun _ w => A w.postgres ∧ Ran u files (files.take k) stmts w.clickhouse)
      fun w => A w.postgres ∧ MigratedClickhouse u files w.clickhouse := by
    apply Triple.foldlM (I := fun pre _ (w : World σ) =>
      A w.postgres ∧ Ran u files (files.take k) pre w.clickhouse)
    intro pre stmt _ _ _
    apply onClickhouse_triple (C := Ran u files (files.take k) pre)
      (D := Ran u files (files.take k) (pre ++ [stmt]))
    · exact fun journal h => h.1.migrated
    · exact fun journal h => ⟨h.snoc stmt, (h.snoc stmt).1.migrated⟩
  apply hloop.imp
  · rintro w ⟨hA, hrec⟩
    exact ⟨hA, hrec, nofun⟩
  · exact fun _ _ hw => hw
  · exact fun _ hw => hw

theorem applyClickhouseFile_triple {pre post : List Migration} {k : ℕ}
    (hsorted : (pre ++ m :: post).Pairwise fun m n => m.1 < n.1) (applied : List String) :
    Triple (fun w => A w.postgres ∧ RecordedTo d.unicode (pre ++ m :: post)
        ((pre ++ m :: post).take (max k pre.length)) w.clickhouse)
      (applyClickhouseFile d faults (((pre ++ m :: post).take k).map Prod.fst) applied m)
      (fun _ w => A w.postgres ∧ RecordedTo d.unicode (pre ++ m :: post)
        ((pre ++ m :: post).take (max k (pre ++ [m]).length)) w.clickhouse)
      fun w => A w.postgres ∧ MigratedClickhouse d.unicode (pre ++ m :: post) w.clickhouse := by
  apply Triple.ite
  · intro hmem
    rw [take_max_of_lt ((version_mem_take_iff hsorted).mp hmem)]
    exact Triple.pure _ fun _ hw => hw
  · intro hmem
    have hle : k ≤ pre.length := not_lt.mp (mt (version_mem_take_iff hsorted).mpr hmem)
    apply (executeClickhouse_triple _).bind
    intro _
    apply Triple.bind (Q := fun _ w => A w.postgres ∧ RecordedTo d.unicode (pre ++ m :: post)
      ((pre ++ m :: post).take (max k (pre ++ [m]).length)) w.clickhouse)
    · apply onClickhouse_triple (C := Ran d.unicode (pre ++ m :: post)
          ((pre ++ m :: post).take (max k pre.length)) (statements d.unicode m.2.text))
        (D := RecordedTo d.unicode (pre ++ m :: post)
          ((pre ++ m :: post).take (max k (pre ++ [m]).length)))
      · exact fun journal h => h.1.migrated
      · rintro journal ⟨hrec, hdone⟩
        have hnext := hrec.record (by simp) hdone
        rw [← take_max_of_le hle] at hnext
        exact ⟨hnext, hnext.migrated⟩
    · intro _
      exact Triple.pure _ fun _ hw => hw

theorem applyClickhouseFiles_triple (hsorted : files.Pairwise fun m n => m.1 < n.1) (k : ℕ) :
    Triple (fun w => A w.postgres ∧ RecordedTo d.unicode files (files.take k) w.clickhouse)
      (files.foldlM (applyClickhouseFile d faults ((files.take k).map Prod.fst)) [])
      (fun _ w => A w.postgres ∧ MigratedClickhouse d.unicode files w.clickhouse)
      fun w => A w.postgres ∧ MigratedClickhouse d.unicode files w.clickhouse := by
  have hloop : Triple (fun w => A w.postgres ∧
        RecordedTo d.unicode files (files.take (max k 0)) w.clickhouse)
      (files.foldlM (applyClickhouseFile d faults ((files.take k).map Prod.fst)) [])
      (fun _ w => A w.postgres ∧
        RecordedTo d.unicode files (files.take (max k files.length)) w.clickhouse)
      fun w => A w.postgres ∧ MigratedClickhouse d.unicode files w.clickhouse := by
    apply Triple.foldlM (I := fun pre _ (w : World σ) =>
      A w.postgres ∧ RecordedTo d.unicode files (files.take (max k pre.length)) w.clickhouse)
    rintro pre m post applied rfl
    exact applyClickhouseFile_triple hsorted applied
  rw [max_eq_left (Nat.zero_le k)] at hloop
  exact hloop.post fun _ w hw => ⟨hw.1, hw.2.migrated⟩

theorem applyClickhouse_triple (hfiles : migrationFiles d.unicode d.clickhouse = .ok files) :
    Triple (fun w => A w.postgres ∧ MigratedClickhouse d.unicode files w.clickhouse)
      (applyClickhouse d faults)
      (fun _ w => A w.postgres ∧ MigratedClickhouse d.unicode files w.clickhouse)
      fun w => A w.postgres ∧ MigratedClickhouse d.unicode files w.clickhouse := by
  rintro w ⟨hA, ⟨k, hk⟩, hjust⟩
  suffices h : Triple
      (fun w => A w.postgres ∧ RecordedTo d.unicode files (files.take k) w.clickhouse)
      (applyClickhouse d faults)
      (fun _ w => A w.postgres ∧ MigratedClickhouse d.unicode files w.clickhouse)
      fun w => A w.postgres ∧ MigratedClickhouse d.unicode files w.clickhouse from
    h w ⟨hA, hk, hjust⟩
  apply (onClickhouse_other rfl).bind
  intro _
  apply Triple.bind (Q := fun _ w =>
    A w.postgres ∧ RecordedTo d.unicode files (files.take k) w.clickhouse)
  · apply send_triple
    · exact fun w hw => ⟨hw.1, hw.2.migrated⟩
    · rintro w w' hw heq
      obtain rfl := Option.some.inj heq
      exact ⟨hw, hw.1, hw.2.migrated⟩
  intro _
  apply Triple.bind (Q := fun w' w =>
    recorded w'.clickhouse = (files.take k).map Migration.record ∧
      A w.postgres ∧ RecordedTo d.unicode files (files.take k) w.clickhouse)
  · exact Triple.get fun w hw => ⟨hw.2.1, hw⟩
  intro w'
  apply Triple.assuming
  intro hrec
  apply (ofExcept_triple fun w hw => ⟨hw.1, hw.2.migrated⟩).bind
  intro files'
  apply Triple.assuming
  intro hok
  obtain rfl : files = files' := Except.ok.inj (hfiles.symm.trans hok)
  rw [hrec, List.map_map]
  exact applyClickhouseFiles_triple (migrationFiles_sorted hfiles) k

end Clickhouse

/-! ## Boots -/

variable {files' : List Migration}

theorem main_triple (hpg : migrationFiles d.unicode d.postgres = .ok files)
    (hch : migrationFiles d.unicode d.clickhouse = .ok files') :
    Triple (fun w => Migrated d data₀ files w.postgres ∧
        MigratedClickhouse d.unicode files' w.clickhouse)
      (main d faults)
      (fun _ w => Migrated d data₀ files w.postgres ∧
        MigratedClickhouse d.unicode files' w.clickhouse)
      fun w => Migrated d data₀ files w.postgres ∧
        MigratedClickhouse d.unicode files' w.clickhouse := by
  apply Triple.bind (Q := fun _ w => Migrated d data₀ files w.postgres ∧
    MigratedClickhouse d.unicode files' w.clickhouse)
  · apply connection_triple
    rintro p ⟨k, hk⟩
    apply Triple.bind (Q := fun _ w => MigratedTo d data₀ files w.postgres ∧
      MigratedClickhouse d.unicode files' w.clickhouse)
    · apply (applyPostgres_triple hpg k).imp
      · rintro w ⟨rfl, hC⟩
        exact ⟨hk, hC⟩
      · exact fun _ _ hw => hw
      · exact fun _ hw => hw
    intro _
    apply applyPostgresRepair_triple.bind
    intro _
    apply Triple.pure
    rintro w ⟨hA, hC⟩
    refine ⟨⟨files.length, ?_⟩, hC⟩
    rwa [List.take_length]
  intro _
  apply (applyClickhouse_triple hch).bind
  intro _
  exact Triple.pure _ fun _ hw => hw

theorem boot_migrated (hpg : migrationFiles d.unicode d.postgres = .ok files)
    (hch : migrationFiles d.unicode d.clickhouse = .ok files') {w : World σ}
    (h : Migrated d data₀ files w.postgres ∧ MigratedClickhouse d.unicode files' w.clickhouse)
    (faults : Faults) : Migrated d data₀ files (boot d w faults).postgres ∧
      MigratedClickhouse d.unicode files' (boot d w faults).clickhouse := by
  have hmain := (main_triple hpg hch : Triple _ (main d faults) _ _) { w with issued := 0 } h
  unfold boot
  cases hrun : main d faults { w with issued := 0 } with
  | ok _ w' =>
    rw [hrun] at hmain
    exact hmain
  | error _ w' =>
    rw [hrun] at hmain
    exact hmain

theorem init_migrated : Migrated d data₀ files (World.init data₀).postgres ∧
    MigratedClickhouse d.unicode files' (World.init data₀).clickhouse := by
  refine ⟨⟨0, rfl, .start⟩, ⟨0, rfl⟩, ?_⟩
  intro before row after h
  cases before with
  | nil => cases h
  | cons e before => cases h

/-- After any boots, whatever failed in them, an initial part of the Postgres files is recorded and
has its effect, and an initial part of the ClickHouse files is recorded, each file after its
statements; the files are in the order of their versions. -/
theorem boots_migrated (hpg : migrationFiles d.unicode d.postgres = .ok files)
    (hch : migrationFiles d.unicode d.clickhouse = .ok files') (runs : List Faults) :
    ((files.Pairwise fun m n => m.1 < n.1) ∧
      Migrated d data₀ files (boots d (.init data₀) runs).postgres) ∧
    ((files'.Pairwise fun m n => m.1 < n.1) ∧
      MigratedClickhouse d.unicode files' (boots d (.init data₀) runs).clickhouse) := by
  have hruns : Migrated d data₀ files (boots d (.init data₀) runs).postgres ∧
      MigratedClickhouse d.unicode files' (boots d (.init data₀) runs).clickhouse := by
    induction runs using List.reverseRecOn with
    | nil => exact init_migrated
    | append_singleton runs faults ih =>
      unfold boots at ih ⊢
      rw [List.foldl_append]
      exact boot_migrated hpg hch ih faults
  exact ⟨⟨migrationFiles_sorted hpg, hruns.1⟩, migrationFiles_sorted hch, hruns.2⟩

section Demo

def demoUnicode : Unicode where
  digit c := if c.isDigit then some (c.toNat - '0'.toNat) else none
  word c := c.isAlphanum || c == '_'
  space c := c.isWhitespace

/-- The data is the list of the statements carried out. -/
def demoDeployment : Deployment (List (List Char)) where
  unicode := demoUnicode
  postgres := [⟨"0002_b.sql", "C; D"⟩, ⟨"0001_a.sql", "A;\nB;"⟩]
  repair := ""
  clickhouse := [⟨"0001_a.sql", "A; B"⟩]
  exec stmt data := some (data ++ [stmt])

def demoMigrations : List Migration :=
  [(1, ⟨"0001_a.sql", "A;\nB;"⟩), (2, ⟨"0002_b.sql", "C; D"⟩)]

/-- A boot whose statement of that number fails. -/
def failsAt (n : ℕ) : Faults := fun i => if i = n then some false else none

/-- The first boot fails at the last statement of the second file, the second one at the first
statement of ClickHouse. -/
theorem boots_migrated_demo :
    (boots demoDeployment (.init []) [failsAt 6]).postgres.data = [] ∧
    (boots demoDeployment (.init []) [failsAt 6, failsAt 11]).postgres.data =
      [['A'], ['B'], ['C'], ['D']] ∧
    Migrated demoDeployment [] demoMigrations
      (boots demoDeployment (.init []) [failsAt 6, failsAt 11]).postgres ∧
    MigratedClickhouse demoUnicode [(1, ⟨"0001_a.sql", "A; B"⟩)]
      (boots demoDeployment (.init []) [failsAt 6, failsAt 11]).clickhouse := by
  have hpg : migrationFiles demoDeployment.unicode demoDeployment.postgres = .ok demoMigrations := by
    decide +kernel
  have hch : migrationFiles demoDeployment.unicode demoDeployment.clickhouse =
      .ok [(1, ⟨"0001_a.sql", "A; B"⟩)] := by
    decide +kernel
  exact ⟨by decide +kernel, by decide +kernel, (boots_migrated hpg hch _).1.2,
    (boots_migrated hpg hch _).2.2⟩

end Demo

end QuantTrader.Migrations
