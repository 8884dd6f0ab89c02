/- Scopes, the per-level layout of a version, and the edits that change it.
   source: src/src/compaction/mod.rs (its uses of `Scope`, `Version::level_slice`,
           `Version::scope_search`, `VersionEdit`, `DbOption` and
           `is_threshold_exceeded_major`); the version and option modules are not in src
   digest: a version is a list of scopes per level; edits add and remove scopes. -/

import Tonbo.Key
import Mathlib.Data.List.Sort

set_option autoImplicit false
set_option relaxedAutoImplicit false

namespace Tonbo.Levels

open Tonbo.Key

variable {K : Type} [LinearOrder K]

/-- `Scope`: the closed key interval a table covers, its file id, and for a level-0
table the log files it subsumes. -/
structure Scope (K : Type) where
  min : K
  max : K
  gen : FileId
  walIds : Option (List FileId)
  deriving DecidableEq, Repr

/-- Modelled from the spec: `Scope::contains`, membership in the closed interval. -/
def Scope.contains (s : Scope K) (key : K) : Bool := s.min ≤ key && key ≤ s.max

def Scope.Disjoint (a b : Scope K) : Prop :=
  a.max < b.min ∨ b.max < a.min ∨ a.max < a.min ∨ b.max < b.min

instance (a b : Scope K) : Decidable (a.Disjoint b) :=
  inferInstanceAs (Decidable (a.max < b.min ∨ b.max < a.min ∨ a.max < a.min ∨ b.max < b.min))

/-- The layout of a level `≥ 1` the spec requires: ascending by `min`, with pairwise
disjoint intervals. -/
def SortedDisjoint (level : List (Scope K)) : Prop :=
  level.Pairwise fun a b => a.min ≤ b.min ∧ a.Disjoint b

def WellFormed (level : List (Scope K)) : Prop := ∀ s ∈ level, s.min ≤ s.max

instance (level : List (Scope K)) : Decidable (SortedDisjoint level) :=
  inferInstanceAs (Decidable (level.Pairwise fun a b : Scope K => a.min ≤ b.min ∧ a.Disjoint b))

instance (level : List (Scope K)) : Decidable (WellFormed level) :=
  inferInstanceAs (Decidable (∀ s ∈ level, s.min ≤ s.max))

def Ascending (level : List (Scope K)) : Prop := level.Pairwise fun a b => a.max < b.min

theorem SortedDisjoint.ascending {level : List (Scope K)} (h : SortedDisjoint level)
    (wf : WellFormed level) : Ascending level :=
  h.imp_of_mem fun {a b} ha hb ⟨le, disj⟩ => by
    rcases disj with h | h | h | h
    · exact h
    · exact absurd ((le.trans (wf b hb)).trans_lt h) (lt_irrefl _)
    · exact absurd (wf a ha) (not_le.mpr h)
    · exact absurd (wf b hb) (not_le.mpr h)

/-- `Version`, through its `level_slice`: the scopes of each level, level 0 in arrival
order. Levels at or past `MAX_LEVEL` are never read. -/
structure Version (K : Type) where
  levelSlice : Nat → List (Scope K)

def Version.ofLevels (levels : List (List (Scope K))) : Version K :=
  ⟨fun l => levels.getD l []⟩

omit [LinearOrder K] in
theorem Version.forall_ofLevels {P : List (Scope K) → Prop} {levels : List (List (Scope K))}
    (h : ∀ level ∈ levels, P level) (empty : P []) (l : Nat) :
    P ((Version.ofLevels levels).levelSlice l) := by
  simp only [Version.ofLevels, List.getD_eq_getElem?_getD]
  cases hl : levels[l]? with
  | none => exact empty
  | some level => exact h level (List.getElem?_mem hl)

/-- `VersionEdit`. -/
inductive VersionEdit (K : Type) where
  | add (level : Nat) (scope : Scope K)
  | remove (level : Nat) (gen : FileId)
  | latestTimeStamp (ts : Timestamp)
  deriving DecidableEq, Repr

/-- Modelled from the spec: the effect of one edit on the levels. An `Add` goes to the
end of level 0 and in `min` order above it; a `Remove` deletes the scopes of its gen. -/
def Version.applyEdit (v : Version K) : VersionEdit K → Version K
  | .add level scope => ⟨fun l => if l = level then
      (if level = 0 then v.levelSlice l ++ [scope]
        else (v.levelSlice l).orderedInsert (fun a b => a.min ≤ b.min) scope)
      else v.levelSlice l⟩
  | .remove level gen => ⟨fun l => if l = level then
      (v.levelSlice l).filter (fun s => s.gen ≠ gen) else v.levelSlice l⟩
  | .latestTimeStamp _ => v

def Version.applyEdits (v : Version K) (edits : List (VersionEdit K)) : Version K :=
  edits.foldl Version.applyEdit v

theorem Version.mem_applyEdits {v : Version K} {edits : List (VersionEdit K)} {l : Nat}
    {scope : Scope K} (h : scope ∈ (v.applyEdits edits).levelSlice l) :
    scope ∈ v.levelSlice l ∨ VersionEdit.add l scope ∈ edits := by
  induction edits generalizing v with
  | nil => exact .inl h
  | cons e rest ih =>
    rcases ih h with before | added
    · cases e with
      | add level s =>
        simp only [Version.applyEdit] at before
        split_ifs at before with hl hl0
        · subst hl
          rcases List.mem_append.mp before with before | added
          exacts [.inl before, .inr (List.mem_singleton.mp added ▸ List.mem_cons_self _ _)]
        · subst hl
          rcases (List.mem_orderedInsert _).mp before with rfl | before
          exacts [.inr (List.mem_cons_self _ _), .inl before]
        · exact .inl before
      | remove level gen =>
        simp only [Version.applyEdit] at before
        split_ifs at before
        exacts [.inl (List.mem_of_mem_filter before), .inl before]
      | latestTimeStamp ts => exact .inl before
    · exact .inr (List.mem_cons_of_mem _ added)

/-- Modelled from the spec: `Version::scope_search`, the lower-bound search by `max`:
the index of the first scope whose `max` is not below `key`, the length when none. -/
def scopeSearch (key : K) (level : List (Scope K)) : Nat :=
  level.findIdx fun s => key ≤ s.max

theorem scopeSearch_le_length (key : K) (level : List (Scope K)) :
    scopeSearch key level ≤ level.length :=
  List.findIdx_le_length _

theorem scopeSearch_mono {a b : K} (hab : a ≤ b) (level : List (Scope K)) :
    scopeSearch a level ≤ scopeSearch b level := by
  induction level with
  | nil => exact le_rfl
  | cons s rest ih =>
    unfold scopeSearch at *
    by_cases ha : a ≤ s.max
    · simp [List.findIdx_cons, ha]
    · have hb : ¬ b ≤ s.max := fun hb => ha (hab.trans hb)
      simpa [List.findIdx_cons, ha, hb] using ih

/-- `DbOption`, the fields compaction reads. -/
structure DbOption where
  immutableChunkNum : Nat
  immutableChunkMaxNum : Nat
  majorThresholdWithSstSize : Nat
  levelSstMagnification : Nat
  majorLSelectionTableMaxNum : Nat
  majorDefaultOldestTableNum : Nat
  maxSstFileSize : Nat
  useWal : Bool
  basePath : String
  levelPaths : List (Option String)
  deriving DecidableEq, Repr

/-- Modelled from the spec: `DbOption::level_fs_path`, the path set for a level. -/
def DbOption.levelFsPath (option : DbOption) (level : Nat) : Option String :=
  option.levelPaths.getD level none

/-- Modelled from the spec: `DbOption::is_threshold_exceeded_major`, whether a level
holds more tables than its capacity. -/
def DbOption.isThresholdExceededMajor (option : DbOption) (version : Version K)
    (level : Nat) : Bool :=
  option.majorThresholdWithSstSize * Nat.pow option.levelSstMagnification level <
    (version.levelSlice level).length

end Tonbo.Levels
