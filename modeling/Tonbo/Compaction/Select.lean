/- The choice of the tables one round of major compaction merges.
   source: src/src/compaction/mod.rs (`Compactor::this_level_scopes`,
           `Compactor::next_level_scopes`, `Compactor::full_scope`)
   digest: a run of scopes meeting the window on level L (or its oldest scopes), the
           window refined to that run, and the scopes of level L+1 meeting its ends. -/

import Tonbo.Compaction.Minor

set_option autoImplicit false
set_option relaxedAutoImplicit false

namespace Tonbo.Compaction.Select

open Tonbo.Key Tonbo.Levels Tonbo.Compaction.Minor

variable {K : Type} [LinearOrder K]

/-- How a compaction call fails: with the `Err` of the source, or by a panic (a slice
out of range, or a `usize` subtraction below zero). -/
inductive Failure where
  | error (e : CompactionError)
  | panic
  deriving DecidableEq, Repr

/-- The slice `l[start..stop]`, which panics unless `start ≤ stop ≤ l.len()`. -/
def slice {α : Type} (l : List α) (start stop : Nat) : Except Failure (List α) :=
  if start ≤ stop ∧ stop ≤ l.length then .ok ((l.drop start).take (stop - start)) else .error .panic

/-- `Compactor::full_scope`: the `min` of the first scope and the `max` of the last. -/
def fullScope (meetScopes : List (Scope K)) : Except Failure (K × K) :=
  match meetScopes.head?, meetScopes.getLast? with
  | some first, some last => .ok (first.min, last.max)
  | _, _ => .error (.error .emptyLevel)

/-- The first loop of `this_level_scopes`, from `start_l` on: take scopes while they
contain `min` or `max` and at most `major_l_selection_table_max_num` are taken,
counting `end_l` up with each. -/
def meetLoop (min max : K) (cap : Nat) : List (Scope K) × Nat → List (Scope K) →
    List (Scope K) × Nat
  | acc, [] => acc
  | (meet, endL), scope :: rest =>
    if (scope.contains min || scope.contains max) && decide (meet.length ≤ cap) then
      meetLoop min max cap (meet ++ [scope], endL + 1) rest
    else (meet, endL)

/-- The second loop of `this_level_scopes`, over the oldest scopes: push until more than
`major_l_selection_table_max_num` are taken. -/
def oldestLoop (cap : Nat) (meet : List (Scope K)) : List (Scope K) → List (Scope K)
  | [] => meet
  | scope :: rest => if meet.length > cap then meet else oldestLoop cap (meet ++ [scope]) rest

/-- `Compactor::this_level_scopes`: the selected scopes of `level` with the indices
`start_l` and `end_l - 1` it returns. -/
def thisLevelScopes (option : DbOption) (version : Version K) (min max : K) (level : Nat) :
    Except Failure (List (Scope K) × Nat × Nat) := do
  let scopes := version.levelSlice level
  let startL := scopeSearch min scopes
  let tail ← slice scopes startL scopes.length
  let (meet, endL) := meetLoop min max option.majorLSelectionTableMaxNum ([], startL) tail
  let (meet, startL, endL) ←
    if meet.isEmpty then do
      let endL := Min.min option.majorDefaultOldestTableNum scopes.length
      let oldest ← slice scopes 0 endL
      pure (oldestLoop option.majorLSelectionTableMaxNum [] oldest, 0, endL)
    else pure (meet, startL, endL)
  if endL = 0 then throw .panic else pure (meet, startL, endL - 1)

/-- What `next_level_scopes` returns, with the window it refines in place. -/
structure NextLevel (K : Type) where
  min : K
  max : K
  scopes : List (Scope K)
  startLl : Nat
  endLl : Nat

/-- `Compactor::next_level_scopes`: when level `level + 1` has tables, refine the window to
the selected scopes of `level` and take the scopes of `level + 1` between the searches
of its ends that contain one of them. -/
def nextLevelScopes (version : Version K) (min max : K) (level : Nat)
    (meetScopesL : List (Scope K)) : Except Failure (NextLevel K) := do
  let next := version.levelSlice (level + 1)
  if next.isEmpty then pure ⟨min, max, [], 0, 0⟩
  else
    match (meetScopesL.map (·.min)).min?, (meetScopesL.map (·.max)).max? with
    | some min, some max => do
      let startLl := scopeSearch min next
      let endLl := scopeSearch max next
      let window ← slice next startLl (Min.min (endLl + 1) next.length)
      pure ⟨min, max, window.filter (fun scope => scope.contains min || scope.contains max),
        startLl, endLl⟩
    | _, _ => throw (.error .emptyLevel)

theorem slice_ok {α : Type} {l : List α} {start stop : Nat} {r : List α}
    (h : slice l start stop = .ok r) :
    r = (l.drop start).take (stop - start) ∧ start ≤ stop ∧ stop ≤ l.length := by
  unfold slice at h
  split at h
  · cases h; exact ⟨rfl, ‹_›⟩
  · cases h

private theorem slice_of_le {α : Type} {l : List α} {start stop : Nat} (h1 : start ≤ stop)
    (h2 : stop ≤ l.length) : slice l start stop = pure ((l.drop start).take (stop - start)) :=
  if_pos ⟨h1, h2⟩

theorem exists_index_of_mem_slice {α : Type} {l : List α} {start k : Nat} {x : α}
    (h : x ∈ (l.drop start).take k) : ∃ i, start ≤ i ∧ i < start + k ∧ l[i]? = some x := by
  obtain ⟨j, hj⟩ := List.getElem?_of_mem h
  rw [List.getElem?_take] at hj
  split at hj
  · exact ⟨start + j, by omega, by omega, by rwa [List.getElem?_drop] at hj⟩
  · cases hj

theorem meetLoop_eq (min max : K) (cap : Nat) (meet : List (Scope K)) (endL : Nat)
    (l : List (Scope K)) :
    ∃ k, meetLoop min max cap (meet, endL) l = (meet ++ l.take k, endL + k) := by
  induction l generalizing meet endL with
  | nil => exact ⟨0, by simp [meetLoop]⟩
  | cons scope rest ih =>
    cases h : (scope.contains min || scope.contains max) && decide (meet.length ≤ cap)
    · exact ⟨0, by simp [meetLoop, h]⟩
    · obtain ⟨k, hk⟩ := ih (meet ++ [scope]) (endL + 1)
      exact ⟨k + 1, by simp [meetLoop, h, hk]; omega⟩

omit [LinearOrder K] in
private theorem oldestLoop_eq (cap : Nat) (meet l : List (Scope K)) :
    ∃ k, oldestLoop cap meet l = meet ++ l.take k := by
  induction l generalizing meet with
  | nil => exact ⟨0, by simp [oldestLoop]⟩
  | cons scope rest ih =>
    by_cases h : meet.length > cap
    · exact ⟨0, by simp [oldestLoop, h]⟩
    · obtain ⟨k, hk⟩ := ih (meet ++ [scope])
      exact ⟨k + 1, by simp [oldestLoop, h, hk]⟩

omit [LinearOrder K] in
theorem oldestLoop_ne_nil (cap : Nat) {l : List (Scope K)} (h : l ≠ []) :
    oldestLoop cap [] l ≠ [] := by
  obtain ⟨s, rest, rfl⟩ := List.exists_cons_of_ne_nil h
  obtain ⟨k, hk⟩ := oldestLoop_eq cap [s] rest
  simp [oldestLoop, hk]

theorem thisLevelScopes_slice {option : DbOption} {version : Version K} {min max : K}
    {level : Nat} {meet : List (Scope K)} {startL endL : Nat}
    (h : thisLevelScopes option version min max level = .ok (meet, startL, endL)) :
    ∃ k, meet = ((version.levelSlice level).drop startL).take k ∧ startL + k ≤ endL + 1 := by
  unfold thisLevelScopes at h
  obtain ⟨tail, htail, h⟩ := bind_eq_ok.mp h
  obtain ⟨rfl, -, -⟩ := slice_ok htail
  obtain ⟨k, hk⟩ := meetLoop_eq min max option.majorLSelectionTableMaxNum []
    (scopeSearch min (version.levelSlice level))
    (((version.levelSlice level).drop (scopeSearch min (version.levelSlice level))).take
      ((version.levelSlice level).length - scopeSearch min (version.levelSlice level)))
  rw [hk] at h
  dsimp only at h
  split at h
  · case isTrue =>
    obtain ⟨oldest, holdest, h⟩ := bind_eq_ok.mp h
    obtain ⟨rfl, -, -⟩ := slice_ok holdest
    simp only [pure_bind] at h
    split at h
    · cases h
    · cases h
      obtain ⟨k', hk'⟩ := oldestLoop_eq option.majorLSelectionTableMaxNum []
        (((version.levelSlice level).drop 0).take
          (Min.min option.majorDefaultOldestTableNum (version.levelSlice level).length - 0))
      exact ⟨_, by rw [hk', List.nil_append, List.take_take], by omega⟩
  · case isFalse =>
    simp only [pure_bind] at h
    split at h
    · cases h
    · cases h
      exact ⟨_, by rw [List.nil_append, List.take_take], by omega⟩

private theorem thisLevelScopes_ok {option : DbOption} {version : Version K} (min max : K) {level : Nat}
    (nonempty : version.levelSlice level ≠ []) (oldest : 1 ≤ option.majorDefaultOldestTableNum) :
    ∃ meet startL endL, thisLevelScopes option version min max level = .ok (meet, startL, endL) ∧
      meet ≠ [] ∧ startL ≤ (version.levelSlice level).length := by
  have start_le := scopeSearch_le_length min (version.levelSlice level)
  have len_pos := List.length_pos.mpr nonempty
  obtain ⟨k, hk⟩ := meetLoop_eq min max option.majorLSelectionTableMaxNum []
    (scopeSearch min (version.levelSlice level))
    (((version.levelSlice level).drop (scopeSearch min (version.levelSlice level))).take
      ((version.levelSlice level).length - scopeSearch min (version.levelSlice level)))
  unfold thisLevelScopes
  simp only [slice_of_le start_le le_rfl, pure_bind, hk, List.nil_append]
  split
  · case isTrue =>
    have pos : 0 < Min.min option.majorDefaultOldestTableNum (version.levelSlice level).length :=
      lt_min oldest len_pos
    rw [slice_of_le (Nat.zero_le _) (min_le_right _ _), pure_bind, if_neg pos.ne']
    exact ⟨_, _, _, rfl, oldestLoop_ne_nil _ (by simp [List.take_eq_nil_iff, nonempty, pos.ne']),
      Nat.zero_le _⟩
  · case isFalse selected =>
    have : k ≠ 0 := by rintro rfl; exact selected rfl
    rw [if_neg (by omega)]
    exact ⟨_, _, _, rfl, fun h => selected (List.isEmpty_iff.mpr h), start_le⟩

theorem nextLevelScopes_scopes {version : Version K} {min max : K} {level : Nat}
    {meet : List (Scope K)} {next : NextLevel K}
    (h : nextLevelScopes version min max level meet = .ok next) :
    next.scopes.Sublist (version.levelSlice (level + 1)) ∧
      ∀ s ∈ next.scopes, ∃ i, next.startLl ≤ i ∧ i ≤ next.endLl ∧
        (version.levelSlice (level + 1))[i]? = some s := by
  unfold nextLevelScopes at h
  dsimp only at h
  by_cases empty : (version.levelSlice (level + 1)).isEmpty = true
  · rw [if_pos empty] at h; cases h; simp
  · rw [if_neg empty] at h
    split at h
    · obtain ⟨window, hwindow, h⟩ := bind_eq_ok.mp h
      obtain ⟨rfl, -, -⟩ := slice_ok hwindow
      cases h
      refine ⟨(List.filter_sublist _).trans ((List.take_sublist _ _).trans (List.drop_sublist _ _)),
        fun s hs => ?_⟩
      obtain ⟨i, lo, hi, hget⟩ := exists_index_of_mem_slice (List.mem_filter.mp hs).1
      exact ⟨i, lo, by dsimp only; omega, hget⟩
    · cases h

private theorem nextLevelScopes_ok {version : Version K} (min max : K) (level : Nat)
    {meet : List (Scope K)} (ne : meet ≠ []) (wf : WellFormed meet) :
    ∃ next, nextLevelScopes version min max level meet = .ok next ∧
      next.startLl ≤ Min.min (next.endLl + 1) (version.levelSlice (level + 1)).length := by
  unfold nextLevelScopes
  dsimp only
  by_cases empty : (version.levelSlice (level + 1)).isEmpty = true
  · rw [if_pos empty]; exact ⟨_, rfl, Nat.zero_le _⟩
  · rw [if_neg empty]
    obtain ⟨s, hs⟩ := List.exists_mem_of_ne_nil meet ne
    obtain ⟨lo, least⟩ := Option.isSome_iff_exists.mp
      (List.isSome_min?_of_mem (List.mem_map_of_mem (·.min) hs))
    obtain ⟨hi, greatest⟩ := Option.isSome_iff_exists.mp
      (List.isSome_max?_of_mem (List.mem_map_of_mem (·.max) hs))
    have lo_le := (List.le_min?_iff (fun _ _ _ => le_min_iff) least).mp le_rfl _
      (List.mem_map_of_mem _ hs)
    have le_hi := (List.max?_le_iff (fun _ _ _ => max_le_iff) greatest).mp le_rfl _
      (List.mem_map_of_mem _ hs)
    have ordered := scopeSearch_mono (lo_le.trans ((wf s hs).trans le_hi))
      (version.levelSlice (level + 1))
    have bound : scopeSearch lo (version.levelSlice (level + 1)) ≤
        Min.min (scopeSearch hi (version.levelSlice (level + 1)) + 1)
          (version.levelSlice (level + 1)).length :=
      le_min (by omega) (scopeSearch_le_length _ _)
    rw [least, greatest]
    simp only [slice_of_le bound (min_le_right _ _), pure_bind]
    exact ⟨_, rfl, bound⟩

omit [LinearOrder K] in
private theorem fullScope_of_ne_nil {meet : List (Scope K)} (ne : meet ≠ []) :
    ∃ lower upper, fullScope meet = .ok (lower, upper) := by
  obtain ⟨s, rest, rfl⟩ := List.exists_cons_of_ne_nil ne
  unfold fullScope
  rw [List.head?_cons, List.getLast?_eq_getLast _ (List.cons_ne_nil s rest)]
  exact ⟨_, _, rfl⟩

theorem fullScope_covers {meet : List (Scope K)} {lower upper : K} (asc : Ascending meet)
    (wf : WellFormed meet) (h : fullScope meet = .ok (lower, upper)) :
    ∀ s ∈ meet, lower ≤ s.min ∧ s.max ≤ upper := by
  unfold fullScope at h
  split at h
  · rename_i first last hfirst hlast
    cases h
    intro s hs
    obtain ⟨rest, rfl⟩ := List.head?_eq_some_iff.mp hfirst
    constructor
    · rcases List.mem_cons.mp hs with rfl | hs
      exacts [le_rfl, (wf _ (List.mem_cons_self _ _)).trans (List.rel_of_pairwise_cons asc hs).le]
    · obtain ⟨init, eq⟩ := List.getLast?_eq_some_iff.mp hlast
      rw [eq] at asc hs
      rcases List.mem_append.mp hs with hs | hs
      · exact ((List.pairwise_append.mp asc).2.2 s hs last (List.mem_singleton_self _)).le.trans
          (wf last (eq ▸ List.mem_append_right _ (List.mem_singleton_self _)))
      · rw [List.mem_singleton.mp hs]
  · cases h

/-! ## Selection stays within the level -/

/-- At a level over its threshold whose scopes are non-empty intervals, with a fallback
of at least one table, neither selection slices a level out of range, takes one from an
end index of zero or fails with `EmptyLevel`, and `full_scope` of the level's selection
succeeds. -/
theorem majorSelection_within_bounds {option : DbOption} {version : Version K} (min max : K)
    {level : Nat} (wf : WellFormed (version.levelSlice level))
    (exceeded : option.isThresholdExceededMajor version level = true)
    (oldest : 1 ≤ option.majorDefaultOldestTableNum) :
    ∃ meet startL endL next lower upper,
      thisLevelScopes option version min max level = .ok (meet, startL, endL) ∧
        startL ≤ (version.levelSlice level).length ∧
        nextLevelScopes version min max level meet = .ok next ∧
        next.startLl ≤ Min.min (next.endLl + 1) (version.levelSlice (level + 1)).length ∧
        fullScope meet = .ok (lower, upper) := by
  have nonempty : version.levelSlice level ≠ [] :=
    List.ne_nil_of_length_pos (Nat.zero_lt_of_lt (of_decide_eq_true exceeded))
  obtain ⟨meet, startL, endL, hthis, ne, start_le⟩ := thisLevelScopes_ok min max nonempty oldest
  obtain ⟨k, hmeet, -⟩ := thisLevelScopes_slice hthis
  have sub : meet.Sublist (version.levelSlice level) :=
    hmeet ▸ (List.take_sublist _ _).trans (List.drop_sublist _ _)
  obtain ⟨next, hnext, bound⟩ :=
    nextLevelScopes_ok min max level ne fun s hs => wf s (sub.subset hs)
  obtain ⟨lower, upper, hscope⟩ := fullScope_of_ne_nil ne
  exact ⟨meet, startL, endL, next, lower, upper, hthis, start_le, hnext, bound, hscope⟩

def twoTableVersion : Version Nat := .ofLevels [[⟨1, 4, 1, none⟩, ⟨5, 9, 2, none⟩], [⟨3, 6, 3, none⟩]]

theorem majorSelection_within_bounds_of_two_tables :
    WellFormed (twoTableVersion.levelSlice 0) ∧
      (testOption 1 1).isThresholdExceededMajor twoTableVersion 0 = true ∧
      1 ≤ (testOption 1 1).majorDefaultOldestTableNum ∧
      ∃ meet startL endL next lower upper,
        thisLevelScopes (testOption 1 1) twoTableVersion 3 8 0 = .ok (meet, startL, endL) ∧
          startL ≤ (twoTableVersion.levelSlice 0).length ∧
          nextLevelScopes twoTableVersion 3 8 0 meet = .ok next ∧
          next.startLl ≤ Min.min (next.endLl + 1) (twoTableVersion.levelSlice 1).length ∧
          fullScope meet = .ok (lower, upper) :=
  ⟨by decide, rfl, by decide, majorSelection_within_bounds 3 8 (by decide) rfl (by decide)⟩

def cappedOption : DbOption := { testOption 1 1 with majorLSelectionTableMaxNum := 1 }

def wideVersion : Version Nat := .ofLevels [[], [⟨1, 4, 1, none⟩, ⟨5, 9, 2, none⟩, ⟨10, 12, 3, none⟩]]

/-- With at most one table to select, `this_level_scopes` selects two: the first loop
admits one past the cap, for a window whose ends lie in two tables, and so does the
fallback to the oldest tables, for a window past the level, whose end index then also
names the third table, which it did not select. -/
theorem thisLevelScopes_exceeds_cap :
    thisLevelScopes cappedOption wideVersion 3 6 1 =
        .ok ([⟨1, 4, 1, none⟩, ⟨5, 9, 2, none⟩], 0, 1) ∧
      thisLevelScopes cappedOption wideVersion 13 14 1 =
        .ok ([⟨1, 4, 1, none⟩, ⟨5, 9, 2, none⟩], 0, 2) ∧
      cappedOption.majorLSelectionTableMaxNum < [(⟨1, 4, 1, none⟩ : Scope Nat), ⟨5, 9, 2, none⟩].length ∧
      ((wideVersion.levelSlice 1).drop 0).take (2 - 0 + 1) ≠ [⟨1, 4, 1, none⟩, ⟨5, 9, 2, none⟩] :=
  ⟨rfl, rfl, by decide, by decide⟩

end Tonbo.Compaction.Select
