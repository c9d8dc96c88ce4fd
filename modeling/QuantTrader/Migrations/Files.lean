import Mathlib.Data.String.Basic
import Mathlib.Data.List.DropRight
import QuantTrader.Frames.Sorting
import QuantTrader.Transition.Run

/-! # Migration files

The files of a directory with their versions, in version order. A file whose name
breaks the convention, or whose version another one has, is refused.
-/

namespace QuantTrader.Migrations

open Frames Transition

/-- The character classes of `re`, `int` and `str.strip`. -/
structure Unicode where
  digit : Char → Option ℕ
  word : Char → Bool
  space : Char → Bool

structure SqlFile where
  name : String
  text : String
  deriving DecidableEq

/-- A file with its version. -/
abbrev Migration := ℕ × SqlFile

section

variable (u : Unicode)

def strip (s : List Char) : List Char :=
  (s.dropWhile u.space).rdropWhile u.space

/-- `_statements` -/
def statements (sql : String) : List (List Char) :=
  ((sql.toList.splitOn ';').map (strip u)).filter fun s => !s.isEmpty

def suffix : List Char := ['.', 's', 'q', 'l']

/-- A match of `_FILE_RE`, with the number of its group. -/
def fileVersion : List Char → Option ℕ
  | a :: b :: c :: d :: '_' :: rest => do
    let a ← u.digit a
    let b ← u.digit b
    let c ← u.digit c
    let d ← u.digit d
    let stem := rest.take (rest.length - suffix.length)
    if suffix.isSuffixOf rest && !stem.isEmpty && stem.all u.word then
      some (((a * 10 + b) * 10 + c) * 10 + d)
    else none
  | _ => none

def badName (path : SqlFile) : String :=
  "마이그레이션 파일명 규약 위반: " ++ path.name ++ " (NNNN_설명.sql 이어야 함)"

def duplicate (ver : ℕ) (first path : SqlFile) : String :=
  "마이그레이션 순번 중복: " ++ String.ofList ((Nat.toDigits 10 ver).leftpad 4 '0') ++
    " (" ++ first.name ++ ", " ++ path.name ++ ")"

/-- One file of the loop of `_migration_files`. -/
def collect (versions : List Migration) (path : SqlFile) : Except String (List Migration) :=
  match fileVersion u path.name.toList with
  | none => .error (badName path)
  | some ver =>
    match versions.lookup ver with
    | some first => .error (duplicate ver first path)
    | none => .ok (versions ++ [(ver, path)])

/-- `_migration_files`, of the files in a directory. -/
def migrationFiles (dir : List SqlFile) : Except String (List Migration) := do
  let paths := dir.filter fun path => suffix.isSuffixOf path.name.toList
  let versions ← (paths.insertionSort fun p q => p.name ≤ q.name).foldlM (collect u) []
  return versions.insertionSort fun m n => m.1 ≤ n.1

end

variable {u : Unicode}

theorem collect_nodup {versions versions' : List Migration} {path : SqlFile}
    (h : (versions.map Prod.fst).Nodup) (hc : collect u versions path = .ok versions') :
    (versions'.map Prod.fst).Nodup := by
  unfold collect at hc
  split at hc
  · cases hc
  · next ver _ =>
    split at hc
    · cases hc
    · next hnone =>
      obtain rfl := Except.ok.inj hc
      rw [List.map_append, List.nodup_append]
      refine ⟨h, List.nodup_singleton _, ?_⟩
      rintro a ha b hb rfl
      obtain rfl : a = ver := List.mem_singleton.mp hb
      obtain ⟨m, hm, hma⟩ := List.mem_map.mp ha
      have hne := List.lookup_eq_none_iff.mp hnone m hm
      rw [hma, bne_self_eq_false] at hne
      cases hne

theorem foldlM_collect_nodup {paths : List SqlFile} {versions versions' : List Migration}
    (h : (versions.map Prod.fst).Nodup) (hc : paths.foldlM (collect u) versions = .ok versions') :
    (versions'.map Prod.fst).Nodup := by
  induction paths generalizing versions with
  | nil =>
    obtain rfl := Except.ok.inj hc
    exact h
  | cons path paths ih =>
    rw [List.foldlM_cons] at hc
    obtain ⟨next, hnext, hrest⟩ := bind_ok_iff.mp hc
    exact ih (collect_nodup h hnext) hrest

theorem migrationFiles_sorted {dir : List SqlFile} {files : List Migration}
    (h : migrationFiles u dir = .ok files) : files.Pairwise fun m n => m.1 < n.1 := by
  obtain ⟨versions, hfold, hret⟩ := bind_ok_iff.mp h
  obtain rfl := Except.ok.inj hret
  have hnodup : (versions.map Prod.fst).Nodup :=
    foldlM_collect_nodup (by rw [List.map_nil]; exact List.nodup_nil) hfold
  have hperm := List.perm_insertionSort (fun m n : Migration => m.1 ≤ n.1) versions
  have hdistinct := (hperm.map Prod.fst).nodup_iff.mpr hnodup
  rw [List.nodup_iff_pairwise_ne, List.pairwise_map] at hdistinct
  apply (Sorting.insertion_sorted Prod.fst versions).imp₂ _ hdistinct
  intro m n hle hne
  exact lt_of_le_of_ne hle hne

end QuantTrader.Migrations
