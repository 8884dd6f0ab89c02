/- Level 0 of the published version: the tables a flush writes, in the order it wrote
   them, and no more than one past the threshold of major compaction.
   source: src/src/compaction/mod.rs (`Compactor::check_then_compaction`,
           `Compactor::minor_compaction`, `Compactor::major_compaction`,
           `Compactor::this_level_scopes`)
   digest: only a flush adds at level 0, at its end and under the id just generated, and
           major compaction only removes there. A flush that finds level 0 over its
           threshold runs a round at level 0; with `major_default_oldest_table_num` at least
           one, its selection is never empty, and the round removes one of the level's
           tables at least. So level 0 stays in creation order, and within one table of the
           threshold. -/

import Tonbo.Compaction.EditLog

set_option autoImplicit false
set_option relaxedAutoImplicit false

namespace Tonbo.Compaction.Level0

open Tonbo.Key Tonbo.Levels Tonbo.Inmem.ImmutableTable Tonbo.Inmem.MutableTable
  Tonbo.Compaction.Minor Tonbo.Compaction.Select Tonbo.Compaction.Major
  Tonbo.Compaction.Compactor Tonbo.Compaction.EditLog

variable {K V : Type} [LinearOrder K]

/-! ## Edits at level 0 -/

private theorem levelSlice_zero_applyEdit {v : Version K} {e : VersionEdit K}
    (he : ∀ scope, e ≠ .add 0 scope) : ((v.applyEdit e).levelSlice 0).Sublist (v.levelSlice 0) := by
  cases e with
  | add level scope =>
    have other : 0 ≠ level := fun h0 => he scope (h0 ▸ rfl)
    simp only [Version.applyEdit, if_neg other]; exact List.Sublist.refl _
  | remove level gen =>
    simp only [Version.applyEdit]
    split
    · exact List.filter_sublist _
    · exact List.Sublist.refl _
  | latestTimeStamp _ => exact List.Sublist.refl _

private theorem levelSlice_zero_applyEdits {v : Version K} {edits : List (VersionEdit K)}
    (he : ∀ e ∈ edits, ∀ scope, e ≠ .add 0 scope) :
    ((v.applyEdits edits).levelSlice 0).Sublist (v.levelSlice 0) := by
  induction edits generalizing v with
  | nil => exact List.Sublist.refl _
  | cons e rest ih =>
    exact (ih fun e' he' => he e' (List.mem_cons_of_mem _ he')).trans
      (levelSlice_zero_applyEdit (he e (List.mem_cons_self _ _)))

private theorem gen_ne_of_remove {v : Version K} {edits : List (VersionEdit K)} {g : FileId}
    (noAdd : ∀ e ∈ edits, ∀ scope, e ≠ .add 0 scope) (removed : VersionEdit.remove 0 g ∈ edits) :
    ∀ x ∈ (v.applyEdits edits).levelSlice 0, x.gen ≠ g := by
  induction edits generalizing v with
  | nil => cases removed
  | cons e rest ih =>
    have restNoAdd : ∀ e ∈ rest, ∀ scope, e ≠ .add 0 scope :=
      fun e' he' => noAdd e' (List.mem_cons_of_mem _ he')
    rcases List.mem_cons.mp removed with rfl | removed
    · intro x hx
      have kept := (levelSlice_zero_applyEdits restNoAdd).subset hx
      simp only [Version.applyEdit, if_true, List.mem_filter, decide_eq_true_eq] at kept
      exact kept.2
    · exact ih restNoAdd removed

private theorem levelSlice_zero_batch {v : Version K} {scope : Scope K} {rest : List (VersionEdit K)}
    (noAdd : ∀ e ∈ rest, ∀ scope, e ≠ .add 0 scope) :
    ((v.applyEdits (.add 0 scope :: rest)).levelSlice 0).Sublist (v.levelSlice 0 ++ [scope]) := by
  have added : (v.applyEdit (.add 0 scope)).levelSlice 0 = v.levelSlice 0 ++ [scope] := by
    simp [Version.applyEdit]
  exact added ▸ levelSlice_zero_applyEdits noAdd

private theorem publishMajor_noAdd {io : MajorIo K V} {option : DbOption} {maxLevel : Nat}
    {version : Version K} {scope : Scope K} {gen : FileId} {st : MajorState K V}
    (h : (if option.isThresholdExceededMajor version 0 then
        majorCompaction io option maxLevel version scope.min scope.max gen
      else .ok ⟨scope.min, scope.max, [], [], [], gen⟩) = .ok st) (ts : Timestamp) :
    ∀ e ∈ st.edits ++ [.latestTimeStamp ts], ∀ scope, e ≠ .add 0 scope := by
  obtain ⟨-, -, edits, hedits, noAdd⟩ := publishMajor_grows h
  intro e he scope'
  rcases List.mem_append.mp he with he | he
  · rw [hedits, List.nil_append] at he; exact noAdd e he scope'
  · rw [List.mem_singleton.mp he]; exact fun h => by cases h

private theorem length_levelSlice_zero_publish {v : Version K} {t : Nat} {scope : Scope K}
    {rest : List (VersionEdit K)} (bound : (v.levelSlice 0).length ≤ t + 1)
    (noAdd : ∀ e ∈ rest, ∀ scope, e ≠ .add 0 scope)
    (removes : t < (v.levelSlice 0).length →
      ∃ m ∈ v.levelSlice 0, VersionEdit.remove 0 m.gen ∈ rest) :
    ((v.applyEdits (.add 0 scope :: rest)).levelSlice 0).length ≤ t + 1 := by
  have sub : ((v.applyEdits (.add 0 scope :: rest)).levelSlice 0).Sublist
      (v.levelSlice 0 ++ [scope]) := levelSlice_zero_batch noAdd
  have le := sub.length_le
  rw [List.length_append, List.length_singleton] at le
  by_cases over : t < (v.levelSlice 0).length
  · -- level 0 was over its threshold: one of its tables is gone
    obtain ⟨m, hm, hr⟩ := removes over
    rcases lt_or_eq_of_le le with lt | eq
    · omega
    · have same := sub.eq_of_length (by rw [eq, List.length_append, List.length_singleton])
      exact absurd rfl (gen_ne_of_remove noAdd hr m (same ▸ List.mem_append_left _ hm))
  · omega

/-! ## Level 0 in the order its tables were written -/

/-- Level 0 of the published version lists tables under ids below the next free one, in
the order they were written: their gens strictly increase. -/
structure Level0InOrder (s : DbState K V) : Prop where
  below : ∀ scope ∈ s.versions.current.levelSlice 0, scope.gen < s.nextGen
  ordered : ((s.versions.current.levelSlice 0).map (·.gen)).Pairwise (· < ·)

theorem Level0InOrder.frame {s s' : DbState K V} (h : Level0InOrder s)
    (current : s'.versions.current = s.versions.current) (gen : s.nextGen ≤ s'.nextGen) :
    Level0InOrder s' where
  below scope hs := (h.below scope (current ▸ hs)).trans_le gen
  ordered := current ▸ h.ordered

section Call

variable {io : CompactorIo K V} {option : DbOption} {maxLevel : Nat} {isManual : Bool}

private theorem freeze_level0InOrder {wal : WalIo K V} {s : DbState K V} (h : Level0InOrder s) :
    Level0InOrder (freeze wal option isManual s).1 := by
  rcases freeze_cases wal option isManual s with ⟨-, hf⟩ | ⟨-, _, -, hf⟩ <;> rw [hf]
  · exact h
  · refine h.frame rfl ?_
    dsimp only
    split
    exacts [Nat.le_succ _, le_rfl]

private theorem publish_level0InOrder {chunkNum : Nat} {scope : Scope K} {s : DbState K V}
    (below : ∀ x ∈ s.versions.current.levelSlice 0, x.gen < scope.gen)
    (ordered : ((s.versions.current.levelSlice 0).map (·.gen)).Pairwise (· < ·))
    (gen : scope.gen < s.nextGen) : Level0InOrder (publish io option maxLevel chunkNum scope s).1 := by
  rcases publish_cases io option maxLevel chunkNum scope s with hpub | ⟨st, hmajor, hpub | hpub⟩ <;>
    rw [hpub]
  · exact ⟨fun x hx => (below x hx).trans gen, ordered⟩
  · exact ⟨fun x hx => (below x hx).trans (gen.trans_le (publishMajor_grows hmajor).1), ordered⟩
  · have later := (publishMajor_grows hmajor).1
    have sub : ((s.versions.current.applyEdits (.add 0 scope :: st.edits ++
        [.latestTimeStamp s.versions.ts])).levelSlice 0).Sublist
          (s.versions.current.levelSlice 0 ++ [scope]) :=
      levelSlice_zero_batch (publishMajor_noAdd hmajor _)
    constructor
    · intro x hx
      rcases List.mem_append.mp (sub.subset hx) with hx | hx
      · exact (below x hx).trans (gen.trans_le later)
      · rw [List.mem_singleton.mp hx]; exact gen.trans_le later
    · refine List.Pairwise.sublist (sub.map _) ?_
      rw [List.map_append, List.pairwise_append]
      refine ⟨ordered, List.pairwise_singleton _ _, fun a ha b hb => ?_⟩
      obtain ⟨x, hx, rfl⟩ := List.mem_map.mp ha
      rw [List.map_singleton, List.mem_singleton] at hb
      exact hb ▸ below x hx

private theorem flushQueue_level0InOrder {s : DbState K V} (h : Level0InOrder s) :
    Level0InOrder (flushQueue io option maxLevel isManual s).1 := by
  rcases flushQueue_cases io option maxLevel isManual s with
    ⟨-, hflush⟩ | ⟨-, ⟨e, hflush⟩ | ⟨-, -, hflush⟩ | ⟨scope, file, -, hminor, hflush⟩⟩ <;>
    rw [hflush]
  · exact h
  · exact h.frame rfl le_rfl
  · exact h.frame rfl le_rfl
  · have gen := (minorCompaction_rows hminor).2
    exact publish_level0InOrder (fun x hx => gen ▸ h.below x hx) h.ordered
      (gen ▸ Nat.lt_succ_self _)

private theorem checkThenCompaction_level0InOrder {s : DbState K V} (h : Level0InOrder s) :
    Level0InOrder (checkThenCompaction io option maxLevel isManual s).1 := by
  rcases checkThenCompaction_cases io option maxLevel isManual s with hcall | hcall <;> rw [hcall]
  · exact freeze_level0InOrder h
  · exact flushQueue_level0InOrder (freeze_level0InOrder h)

end Call

/-- In every run from a new store, failed calls included, level 0 of the published version
lists its tables in the order they were written, by strictly increasing gen, each gen
below the next free id; so the oldest tables of level 0 are its first ones. -/
theorem runPastFailures_level0_in_order {option : DbOption} {maxLevel : Nat}
    {checkIfExceed : Option V → Bool} (steps : List (Step K V)) :
    Level0InOrder (runPastFailures option maxLevel checkIfExceed (DbState.new option) steps) :=
  runPastFailures_preserves Level0InOrder steps (fun _ _ _ h => ⟨h.below, h.ordered⟩)
    (fun _ _ _ _ h => checkThenCompaction_level0InOrder h) _
    ⟨fun _ hs => (List.not_mem_nil _ hs).elim, List.Pairwise.nil⟩

/-! ## Level 0 within one table of the threshold -/

private theorem thisLevelScopes_ne_nil {option : DbOption} {version : Version K} {min max : K}
    {level : Nat} {meet : List (Scope K)} {startL endL : Nat}
    (oldest : 1 ≤ option.majorDefaultOldestTableNum) (nonempty : version.levelSlice level ≠ [])
    (h : thisLevelScopes option version min max level = .ok (meet, startL, endL)) : meet ≠ [] := by
  unfold thisLevelScopes at h
  obtain ⟨tail, -, h⟩ := bind_eq_ok.mp h
  obtain ⟨k, hk⟩ := meetLoop_eq min max option.majorLSelectionTableMaxNum []
    (scopeSearch min (version.levelSlice level)) tail
  rw [hk] at h
  dsimp only at h
  split at h
  · case isTrue =>
    obtain ⟨oldestScopes, holdest, h⟩ := bind_eq_ok.mp h
    obtain ⟨rfl, -, -⟩ := slice_ok holdest
    simp only [pure_bind] at h
    split at h
    · cases h
    · cases h
      refine oldestLoop_ne_nil _ fun hnil => ?_
      simp only [List.drop_zero, Nat.sub_zero, List.take_eq_nil_iff] at hnil
      have := List.length_pos.mpr nonempty
      rcases hnil with hnil | hnil
      · omega
      · exact nonempty hnil
  · case isFalse selected =>
    simp only [pure_bind] at h
    split at h
    · cases h
    · cases h
      exact fun hnil => selected (List.isEmpty_iff.mpr hnil)

section Major

variable {io : MajorIo K V} {option : DbOption} {version : Version K}

private theorem majorRound_removes_level0 {st st' : MajorState K V} {streams : List (ScanStream K)}
    (oldest : 1 ≤ option.majorDefaultOldestTableNum) (nonempty : version.levelSlice 0 ≠ [])
    (h : majorRound io option version 0 st = .ok (streams, st')) :
    ∃ m ∈ version.levelSlice 0, VersionEdit.remove 0 m.gen ∈ st'.edits := by
  obtain ⟨meet, startL, endL, next, streamsL, streamsLl, built, hthis, -, -, -, -, -, -, -, hedits,
    -⟩ := majorRound_ok h
  obtain ⟨m, rest, hm⟩ := List.exists_cons_of_ne_nil (thisLevelScopes_ne_nil oldest nonempty hthis)
  obtain ⟨k, hmeet, -⟩ := thisLevelScopes_slice hthis
  have mem : m ∈ meet := hm ▸ List.mem_cons_self _ _
  refine ⟨m, List.mem_of_mem_drop (List.mem_of_mem_take (hmeet ▸ mem)), ?_⟩
  rw [hedits]
  exact List.mem_append_left _ (List.mem_append_right _ (List.mem_map_of_mem _ mem))

private theorem majorCompaction_removes_level0 {maxLevel : Nat} {min max : K} {gen : FileId}
    {st : MajorState K V} (levels : 3 ≤ maxLevel) (oldest : 1 ≤ option.majorDefaultOldestTableNum)
    (exceeded : option.isThresholdExceededMajor version 0 = true)
    (h : majorCompaction io option maxLevel version min max gen = .ok st) :
    ∃ m ∈ version.levelSlice 0, VersionEdit.remove 0 m.gen ∈ st.edits := by
  obtain ⟨fuel, hfuel⟩ : ∃ fuel, maxLevel - 2 = fuel + 1 := ⟨maxLevel - 3, by omega⟩
  unfold majorCompaction at h
  rw [hfuel] at h
  simp only [majorLoop, exceeded, if_true] at h
  cases hround : majorRound io option version 0 ⟨min, max, [], [], [], gen⟩ with
  | error e => rw [hround] at h; cases h
  | ok r =>
    rw [hround] at h
    have nonempty : version.levelSlice 0 ≠ [] := fun empty => by
      simp [DbOption.isThresholdExceededMajor, empty] at exceeded
    obtain ⟨m, hm, hr⟩ := majorRound_removes_level0 oldest nonempty hround
    obtain ⟨edits, hedits, -⟩ := majorLoop_edits _ _ _ h
    exact ⟨m, hm, hedits ▸ List.mem_append_left _ hr⟩

end Major

section Call

variable {io : CompactorIo K V} {option : DbOption} {maxLevel : Nat} {isManual : Bool}

def Level0Bounded (option : DbOption) (s : DbState K V) : Prop :=
  (s.versions.current.levelSlice 0).length ≤ option.majorThresholdWithSstSize + 1

private theorem publish_level0Bounded (levels : 3 ≤ maxLevel)
    (oldest : 1 ≤ option.majorDefaultOldestTableNum) {chunkNum : Nat} {scope : Scope K}
    {s : DbState K V} (bound : Level0Bounded option s) :
    Level0Bounded option (publish io option maxLevel chunkNum scope s).1 := by
  rcases publish_cases io option maxLevel chunkNum scope s with hpub | ⟨st, hmajor, hpub | hpub⟩ <;>
    rw [hpub]
  · exact bound
  · exact bound
  · refine length_levelSlice_zero_publish bound (publishMajor_noAdd hmajor _) fun over => ?_
    have pow : Nat.pow option.levelSstMagnification 0 = 1 := rfl
    have exceeded : option.isThresholdExceededMajor s.versions.current 0 = true := by
      simp only [DbOption.isThresholdExceededMajor, pow, Nat.mul_one, decide_eq_true_eq]
      exact over
    rw [if_pos exceeded] at hmajor
    obtain ⟨m, hm, hr⟩ := majorCompaction_removes_level0 levels oldest exceeded hmajor
    exact ⟨m, hm, List.mem_append_left _ hr⟩

private theorem checkThenCompaction_level0Bounded (levels : 3 ≤ maxLevel)
    (oldest : 1 ≤ option.majorDefaultOldestTableNum) {s : DbState K V}
    (bound : Level0Bounded option s) :
    Level0Bounded option (checkThenCompaction io option maxLevel isManual s).1 := by
  have frozen : Level0Bounded option (freeze io.wal option isManual s).1 := by
    unfold Level0Bounded; rw [freeze_versions]; exact bound
  rcases checkThenCompaction_cases io option maxLevel isManual s with hcall | hcall <;> rw [hcall]
  · exact frozen
  · rcases flushQueue_cases io option maxLevel isManual (freeze io.wal option isManual s).1 with
      ⟨-, h⟩ | ⟨-, ⟨e, h⟩ | ⟨-, -, h⟩ | ⟨scope, file, -, -, h⟩⟩ <;> rw [h]
    · exact frozen
    · exact frozen
    · exact frozen
    · exact publish_level0Bounded levels oldest frozen

end Call

/-- In every run from a new store, failed calls included, with `MAX_LEVEL` at least 3 and
`major_default_oldest_table_num` at least one: level 0 of the published version never
holds more than `major_threshold_with_sst_size` tables plus one. -/
theorem runPastFailures_level0_bounded {option : DbOption} {maxLevel : Nat}
    {checkIfExceed : Option V → Bool} (levels : 3 ≤ maxLevel)
    (oldest : 1 ≤ option.majorDefaultOldestTableNum) (steps : List (Step K V)) :
    ((runPastFailures option maxLevel checkIfExceed (DbState.new option) steps).versions.current.levelSlice
      0).length ≤ option.majorThresholdWithSstSize + 1 :=
  runPastFailures_preserves (Level0Bounded option) steps (fun _ _ _ h => h)
    (fun _ _ _ _ h => checkThenCompaction_level0Bounded levels oldest h) _ (Nat.zero_le _)

def threeFlushRun : List (Step Nat Nat) :=
  [appendKey 0, .compact (compactorIo false none) true, appendKey 1,
    .compact (compactorIo false none) true, appendKey 2, .compact (compactorIo false none) true]

theorem runPastFailures_level0_bounded_of_three_flushes :
    3 ≤ 7 ∧ 1 ≤ (testOption 1 1).majorDefaultOldestTableNum ∧ ((runPastFailures (testOption 1 1) 7 (fun _ => false) (DbState.new (testOption 1 1))
      threeFlushRun).versions.current.levelSlice 0).length ≤ (testOption 1 1).majorThresholdWithSstSize + 1 :=
  ⟨by decide, by decide, runPastFailures_level0_bounded (by decide) (by decide) threeFlushRun⟩

/- With a threshold of one table, the third flush finds two tables at level 0, neither
meeting its window, and merges the oldest ones away: level 0 keeps the new table only. -/
example :
    ((runPastFailures (testOption 1 1) 7 (fun _ => false) (DbState.new (testOption 1 1))
      threeFlushRun).versions.current.levelSlice 0).map (·.gen) = [6] := by
  decide

end Tonbo.Compaction.Level0
