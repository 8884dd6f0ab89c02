/- Minor compaction: the oldest queued immutables written out as one level-0 table.
   source: src/src/compaction/mod.rs (`Compactor::minor_compaction`, `CompactionError`)
   digest: the batches' rows in queue order, the scope widened batch by batch, and the
           log ids of the recovered files and of the batches. -/

import Tonbo.Levels
import Tonbo.Inmem.ImmutableTable
import Mathlib.Order.MinMax

set_option autoImplicit false
set_option relaxedAutoImplicit false

namespace Tonbo.Compaction.Minor

open Tonbo.Key Tonbo.Skiplist Tonbo.Levels Tonbo.Inmem.ImmutableTable

variable {K V : Type} [LinearOrder K]

/-- `CompactionError`. -/
inductive CompactionError where
  | io
  | parquet
  | fusio
  | version
  | logger
  | channelClose
  | commit
  | emptyLevel
  deriving DecidableEq, Repr

/-- A table file the compactor writes: its gen, its level, and its rows in file order. -/
structure TableFile (K V : Type) where
  gen : FileId
  level : Nat
  rows : List (Row K V)
  fs : String

/-- The table files as the compactor uses them: the error, if any, of writing a new
table of a level under a gen (opening it, writing its batches, closing it). -/
structure TableIo where
  writeFails : Nat → FileId → Option CompactionError

structure MinorAcc (K : Type) where
  min : Option K
  max : Option K
  walIds : List FileId

def widen (acc : MinorAcc K) (scope : Option K × Option K) : MinorAcc K :=
  match scope with
  | (some batchMin, some batchMax) =>
    { acc with
      min := if acc.min.all (batchMin < ·) then some batchMin else acc.min
      max := if acc.max.all (· < batchMax) then some batchMax else acc.max }
  | _ => acc

/-- One pass of the loop of `minor_compaction` over a queued batch: widen the scope, and
collect the batch's log id. -/
def minorStep (acc : MinorAcc K) (entry : Option FileId × Immutable K V) : MinorAcc K :=
  let widened := widen acc entry.2.scope
  match entry.1 with
  | some fileId => { widened with walIds := widened.walIds ++ [fileId] }
  | none => widened

/-- `Compactor::minor_compaction`: one level-0 table holding the batches' rows in queue
order, written through the level-0 path, and its scope; `gen` is the id
`generate_file_id()` returns. -/
def minorCompaction (option : DbOption) (io : TableIo) (gen : FileId)
    (recoverWalIds : Option (List FileId)) (batches : List (Option FileId × Immutable K V)) :
    Except CompactionError (Option (Scope K × TableFile K V)) :=
  if batches.isEmpty then .ok none
  else match io.writeFails 0 gen with
    | some e => .error e
    | none =>
      let acc := batches.foldl minorStep ⟨none, none, recoverWalIds.getD []⟩
      match acc.min, acc.max with
      | some min, some max =>
        .ok (some (⟨min, max, gen, some acc.walIds⟩,
          ⟨gen, 0, (batches.map fun entry => entry.2.asRecordBatch).flatten,
            (option.levelFsPath 0).getD option.basePath⟩))
      | _, _ => .error .emptyLevel

private theorem widen_walIds (acc : MinorAcc K) (scope : Option K × Option K) :
    (widen acc scope).walIds = acc.walIds := by
  unfold widen; split <;> rfl

private theorem minorStep_walIds (acc : MinorAcc K) (entry : Option FileId × Immutable K V) :
    (minorStep acc entry).walIds = acc.walIds ++ entry.1.toList := by
  obtain ⟨_ | fileId, batch⟩ := entry <;> simp [minorStep, widen_walIds]

private theorem minorStep_bounds (acc : MinorAcc K) (entry : Option FileId × Immutable K V) :
    (minorStep acc entry).min = (widen acc entry.2.scope).min ∧
      (minorStep acc entry).max = (widen acc entry.2.scope).max := by
  obtain ⟨_ | fileId, batch⟩ := entry <;> exact ⟨rfl, rfl⟩

private theorem min?_toList_append (l r : List K) : (l.min?.toList ++ r).min? = (l ++ r).min? := by
  cases l with
  | nil => rfl
  | cons x xs => simp only [List.min?_cons', Option.toList_some, List.singleton_append,
      List.cons_append, List.foldl_append, List.foldl_nil]

private theorem max?_toList_append (l r : List K) : (l.max?.toList ++ r).max? = (l ++ r).max? := by
  cases l with
  | nil => rfl
  | cons x xs => simp only [List.max?_cons', Option.toList_some, List.singleton_append,
      List.cons_append, List.foldl_append, List.foldl_nil]

private theorem widen_min (acc : MinorAcc K) (b : Immutable K V) :
    (widen acc b.scope).min = (acc.min.toList ++ b.scope.1.toList).min? := by
  obtain ⟨_ | m, max, walIds⟩ := acc <;>
    rcases b.scope_of_nil_or_some with scope | ⟨lo, hi, scope⟩ <;> rw [scope] <;> try rfl
  simp only [widen, Option.all_some, decide_eq_true_eq, Option.toList_some,
    List.singleton_append, List.min?_cons', List.foldl_cons, List.foldl_nil]
  rw [min_comm, min_def_lt]
  exact (apply_ite some _ _ _).symm

private theorem widen_max (acc : MinorAcc K) (b : Immutable K V) :
    (widen acc b.scope).max = (acc.max.toList ++ b.scope.2.toList).max? := by
  obtain ⟨min, _ | m, walIds⟩ := acc <;>
    rcases b.scope_of_nil_or_some with scope | ⟨lo, hi, scope⟩ <;> rw [scope] <;> try rfl
  simp only [widen, Option.all_some, decide_eq_true_eq, Option.toList_some,
    List.singleton_append, List.max?_cons', List.foldl_cons, List.foldl_nil]
  rw [max_def_lt]
  exact (apply_ite some _ _ _).symm

private theorem filterMap_cons_toList {α β : Type} (f : α → Option β) (a : α) (l : List α) :
    (a :: l).filterMap f = (f a).toList ++ l.filterMap f := by
  cases h : f a <;> simp [List.filterMap_cons, h]

private theorem foldl_minorStep (acc : MinorAcc K) (batches : List (Option FileId × Immutable K V)) :
    (batches.foldl minorStep acc).min = (acc.min.toList ++ batches.filterMap (·.2.scope.1)).min? ∧
      (batches.foldl minorStep acc).max =
        (acc.max.toList ++ batches.filterMap (·.2.scope.2)).max? ∧
      (batches.foldl minorStep acc).walIds = acc.walIds ++ batches.filterMap (·.1) := by
  induction batches generalizing acc with
  | nil => obtain ⟨_ | m, _ | m', walIds⟩ := acc <;> simp
  | cons e rest ih =>
    obtain ⟨hmin, hmax, hwal⟩ := ih (minorStep acc e)
    simp only [List.foldl_cons, filterMap_cons_toList, ← List.append_assoc]
    refine ⟨?_, ?_, ?_⟩
    · rw [hmin, (minorStep_bounds acc e).1, widen_min, min?_toList_append]
    · rw [hmax, (minorStep_bounds acc e).2, widen_max, max?_toList_append]
    · rw [hwal, minorStep_walIds]

theorem minorCompaction_rows {option : DbOption} {io : TableIo} {gen : FileId}
    {recoverWalIds : Option (List FileId)} {batches : List (Option FileId × Immutable K V)}
    {s : Scope K} {file : TableFile K V}
    (h : minorCompaction option io gen recoverWalIds batches = .ok (some (s, file))) :
    file = ⟨gen, 0, (batches.map fun entry => entry.2.rows).flatten,
      (option.levelFsPath 0).getD option.basePath⟩ ∧ s.gen = gen := by
  unfold minorCompaction at h
  split at h
  · cases h
  · split at h
    · cases h
    · dsimp only at h
      split at h
      · simp only [Except.ok.injEq, Option.some.injEq, Prod.mk.injEq] at h
        exact ⟨h.2.symm, h.1 ▸ rfl⟩
      · cases h

theorem minorCompaction_none {option : DbOption} {io : TableIo} {gen : FileId}
    {recoverWalIds : Option (List FileId)} {batches : List (Option FileId × Immutable K V)}
    (h : minorCompaction option io gen recoverWalIds batches = .ok none) : batches = [] := by
  unfold minorCompaction at h
  split at h
  · exact List.isEmpty_iff.mp ‹_›
  · split at h
    · cases h
    · dsimp only at h
      split at h <;> cases h

private theorem mem_scopeMins {batches : List (Option FileId × Immutable K V)} {lo : K} :
    lo ∈ batches.filterMap (·.2.scope.1) ↔ ∃ b ∈ batches, ∃ hi, b.2.scope = (some lo, some hi) := by
  simp only [List.mem_filterMap]
  refine exists_congr fun b => and_congr_right fun _ => ?_
  rcases b.2.scope_of_nil_or_some with scope | ⟨l, h, scope⟩ <;> simp [scope]

private theorem mem_scopeMaxes {batches : List (Option FileId × Immutable K V)} {hi : K} :
    hi ∈ batches.filterMap (·.2.scope.2) ↔ ∃ b ∈ batches, ∃ lo, b.2.scope = (some lo, some hi) := by
  simp only [List.mem_filterMap]
  refine exists_congr fun b => and_congr_right fun _ => ?_
  rcases b.2.scope_of_nil_or_some with scope | ⟨l, h, scope⟩ <;> simp [scope]

theorem minorCompaction_ok {option : DbOption} {io : TableIo} {gen : FileId}
    {recoverWalIds : Option (List FileId)} {batches : List (Option FileId × Immutable K V)}
    {s : Scope K} {file : TableFile K V}
    (h : minorCompaction option io gen recoverWalIds batches = .ok (some (s, file))) :
    s.walIds = some (recoverWalIds.getD [] ++ batches.filterMap (·.1)) ∧
      ∀ r ∈ file.rows, s.contains r.1.value := by
  obtain ⟨hmin, hmax, hwal⟩ := foldl_minorStep ⟨none, none, recoverWalIds.getD []⟩ batches
  simp only [Option.toList_none, List.nil_append] at hmin hmax hwal
  unfold minorCompaction at h
  split at h
  · cases h
  · split at h
    · cases h
    · dsimp only at h
      split at h
      · rename_i lo hi least greatest
        simp only [Except.ok.injEq, Option.some.injEq, Prod.mk.injEq] at h
        obtain ⟨rfl, rfl⟩ := h
        refine ⟨by rw [hwal], fun r hr => ?_⟩
        obtain ⟨rows, hrows, hr⟩ := List.mem_flatten.mp hr
        obtain ⟨c, hc, rfl⟩ := List.mem_map.mp hrows
        obtain ⟨l, u, scope⟩ := c.2.scope_of_ne_nil (List.ne_nil_of_mem hr)
        have within := (c.2.scope_bounds scope).2.2 r.1.value (List.mem_map_of_mem _ hr)
        have lo_le := (List.le_min?_iff (fun _ _ _ => le_min_iff) (hmin.symm.trans least)).mp le_rfl
          l (mem_scopeMins.mpr ⟨c, hc, u, scope⟩)
        have le_hi := (List.max?_le_iff (fun _ _ _ => max_le_iff) (hmax.symm.trans greatest)).mp
          le_rfl u (mem_scopeMaxes.mpr ⟨c, hc, l, scope⟩)
        simpa [Scope.contains] using ⟨lo_le.trans within.1, within.2.trans le_hi⟩
      · cases h

/-- For batches of which one has rows, `minor_compaction` fails only when its file write
does, and otherwise returns the scope whose `min` is the least and `max` the greatest of
the batches' bounds, both attained, covering every row written, with the recovered log
ids followed by the batches' in queue order; for no batch it returns `None`. -/
theorem minorCompaction_scope (option : DbOption) (io : TableIo) (gen : FileId)
    (recoverWalIds : Option (List FileId)) :
    minorCompaction option io gen recoverWalIds ([] : List (Option FileId × Immutable K V)) =
        .ok none ∧
      ∀ batches : List (Option FileId × Immutable K V), (∃ b ∈ batches, b.2.rows ≠ []) →
        ∃ (s : Scope K) (file : TableFile K V),
          minorCompaction option io gen recoverWalIds batches =
              (io.writeFails 0 gen).elim (.ok (some (s, file))) .error ∧
            s.gen = gen ∧ s.walIds = some (recoverWalIds.getD [] ++ batches.filterMap (·.1)) ∧
            (∀ b ∈ batches, ∀ lo hi, b.2.scope = (some lo, some hi) → s.min ≤ lo ∧ hi ≤ s.max) ∧
            (∃ b ∈ batches, ∃ hi, b.2.scope = (some s.min, some hi)) ∧
            (∃ b ∈ batches, ∃ lo, b.2.scope = (some lo, some s.max)) ∧
            ∀ r ∈ file.rows, s.min ≤ r.1.value ∧ r.1.value ≤ s.max := by
  refine ⟨rfl, fun batches ⟨b, hb, ne⟩ => ?_⟩
  obtain ⟨hmin, hmax, hwal⟩ := foldl_minorStep ⟨none, none, recoverWalIds.getD []⟩ batches
  obtain ⟨blo, bhi, bscope⟩ := b.2.scope_of_ne_nil ne
  obtain ⟨lo, least⟩ := Option.isSome_iff_exists.mp <| List.isSome_min?_of_mem
    (mem_scopeMins.mpr ⟨b, hb, bhi, bscope⟩)
  obtain ⟨hi, greatest⟩ := Option.isSome_iff_exists.mp <| List.isSome_max?_of_mem
    (mem_scopeMaxes.mpr ⟨b, hb, blo, bscope⟩)
  have lo_le := (List.le_min?_iff (fun _ _ _ => le_min_iff) least).mp le_rfl
  have le_hi := (List.max?_le_iff (fun _ _ _ => max_le_iff) greatest).mp le_rfl
  have bounds : ∀ c ∈ batches, ∀ l h, c.2.scope = (some l, some h) → lo ≤ l ∧ h ≤ hi :=
    fun c hc l h scope =>
      ⟨lo_le l (mem_scopeMins.mpr ⟨c, hc, h, scope⟩), le_hi h (mem_scopeMaxes.mpr ⟨c, hc, l, scope⟩)⟩
  refine ⟨⟨lo, hi, gen, some (recoverWalIds.getD [] ++ batches.filterMap (·.1))⟩,
    ⟨gen, 0, (batches.map fun entry => entry.2.asRecordBatch).flatten,
      (option.levelFsPath 0).getD option.basePath⟩, ?_, rfl, rfl, bounds,
    mem_scopeMins.mp (List.min?_mem (fun _ _ => min_choice _ _) least),
    mem_scopeMaxes.mp (List.max?_mem (fun _ _ => max_choice _ _) greatest), ?_⟩
  · have nonempty : batches.isEmpty = false := List.isEmpty_eq_false_iff_exists_mem.mpr ⟨b, hb⟩
    simp only [Option.toList_none, List.nil_append] at hmin hmax hwal
    cases fails : io.writeFails 0 gen <;>
      simp [minorCompaction, nonempty, fails, hmin, hmax, hwal, least, greatest]
  · intro r hr
    obtain ⟨rows, hrows, hr⟩ := List.mem_flatten.mp hr
    obtain ⟨c, hc, rfl⟩ := List.mem_map.mp hrows
    obtain ⟨l, h, scope⟩ := c.2.scope_of_ne_nil (List.ne_nil_of_mem hr)
    have within := (c.2.scope_bounds scope).2.2 r.1.value (List.mem_map_of_mem _ hr)
    exact ⟨(bounds c hc l h scope).1.trans within.1, within.2.trans (bounds c hc l h scope).2⟩

def testOption (threshold magnification : Nat) : DbOption :=
  { immutableChunkNum := 1, immutableChunkMaxNum := 1, majorThresholdWithSstSize := threshold,
    levelSstMagnification := magnification, majorLSelectionTableMaxNum := 4,
    majorDefaultOldestTableNum := 3, maxSstFileSize := 1000, useWal := true,
    basePath := "db", levelPaths := [] }

def testBatch (keys : List Nat) : Immutable Nat Nat :=
  .new (keys.foldl (fun d k => d.insert ⟨k, EPOCH⟩ (some k)) .empty)

def testBatches : List (Option FileId × Immutable Nat Nat) :=
  [(some 1, testBatch [3, 5, 6]), (some 2, testBatch [4, 2, 1])]

theorem minorCompaction_scope_of_test_batches :
    ∃ (s : Scope Nat) (file : TableFile Nat Nat),
      minorCompaction (testOption 1 1) ⟨fun _ _ => none⟩ 7 none testBatches =
          .ok (some (s, file)) ∧ s.walIds = some [1, 2] ∧
        ∀ b ∈ testBatches, ∀ lo hi, b.2.scope = (some lo, some hi) → s.min ≤ lo ∧ hi ≤ s.max := by
  obtain ⟨s, file, run, -, wal, bounds, -⟩ :=
    (minorCompaction_scope (testOption 1 1) ⟨fun _ _ => none⟩ 7 none).2
    testBatches ⟨_, List.mem_cons_self _ _, by decide⟩
  exact ⟨s, file, run, wal, bounds⟩

/-- On the batches of the source's own test, the level-0 table gets the rows 3, 5, 6 and
then 1, 2, 4: the batches' rows in queue order, not sorted by key. -/
theorem minorCompaction_writes_unsorted_table (option : DbOption) :
    ∃ (s : Scope Nat) (file : TableFile Nat Nat),
      minorCompaction option ⟨fun _ _ => none⟩ 7 none testBatches = .ok (some (s, file)) ∧
        file.rows.map (·.1.value) = [3, 5, 6, 1, 2, 4] ∧ ¬ Sorted file.rows :=
  ⟨_, _, rfl, rfl, by unfold Sorted; dsimp only; decide⟩

end Tonbo.Compaction.Minor
