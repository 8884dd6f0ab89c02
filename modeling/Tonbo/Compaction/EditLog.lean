/- The log of version edits the compaction calls publish.
   source: src/src/compaction/mod.rs (`Compactor::check_then_compaction`,
           `Compactor::major_compaction`)
   digest: a flush publishes one whole batch: the `Add` of its level-0 table, what major
           compaction emits, and the stamp `increase_ts` takes, last. A call that fails
           publishes nothing, except a manual one whose manifest rewrite panics after it
           published. So until the `u32` counter wraps, the log of every run is whole batches
           with rising stamps. -/

import Tonbo.Compaction.Compactor

set_option autoImplicit false
set_option relaxedAutoImplicit false

namespace Tonbo.Compaction.EditLog

open Tonbo.Key Tonbo.Skiplist Tonbo.Levels Tonbo.Inmem.ImmutableTable Tonbo.Inmem.MutableTable
  Tonbo.Compaction.Minor Tonbo.Compaction.Select Tonbo.Compaction.Major
  Tonbo.Compaction.Compactor

variable {K V : Type} [LinearOrder K]

def VersionEdit.isMerge : VersionEdit K → Bool
  | .add level _ => level != 0
  | .remove _ _ => true
  | .latestTimeStamp _ => false

/-! ## What major compaction emits -/

section Major

variable {io : MajorIo K V} {option : DbOption} {version : Version K}

private theorem majorRound_edits {level : Nat} {st st' : MajorState K V}
    {streams : List (ScanStream K)} (h : majorRound io option version level st = .ok (streams, st')) :
    ∃ edits, st'.edits = st.edits ++ edits ∧ ∀ e ∈ edits, VersionEdit.isMerge e := by
  obtain ⟨meet, -, -, next, streamsL, streamsLl, built, -, -, -, -, hbuilt, -, -, -, hedits, -⟩ :=
    majorRound_ok h
  obtain ⟨-, ⟨adds, hadds⟩, -⟩ := buildTables_extends hbuilt
  refine ⟨adds.map (.add (level + 1)) ++ meet.map (fun scope => .remove level scope.gen)
      ++ next.scopes.map (fun scope => .remove (level + 1) scope.gen), ?_, fun e he => ?_⟩
  · rw [hedits, hadds]; simp only [List.nil_append, List.append_assoc]
  · simp only [List.mem_append, List.mem_map] at he
    rcases he with (⟨_, -, rfl⟩ | ⟨_, -, rfl⟩) | ⟨_, -, rfl⟩ <;> rfl

theorem majorLoop_edits (fuel level : Nat) (st : MajorState K V) {st' : MajorState K V}
    (h : majorLoop io option version fuel level st = .ok st') :
    ∃ edits, st'.edits = st.edits ++ edits ∧ ∀ e ∈ edits, VersionEdit.isMerge e := by
  induction fuel generalizing level st with
  | zero => cases h; exact ⟨[], by simp, by simp⟩
  | succ fuel ih =>
    simp only [majorLoop] at h
    split at h
    · cases hround : majorRound io option version level st with
      | error e => rw [hround] at h; cases h
      | ok r =>
        rw [hround] at h
        obtain ⟨edits, hedits, merge⟩ := majorRound_edits hround
        obtain ⟨edits', hedits', merge'⟩ := ih _ _ h
        refine ⟨edits ++ edits', by rw [hedits', hedits, List.append_assoc], fun e he => ?_⟩
        rcases List.mem_append.mp he with he | he
        exacts [merge e he, merge' e he]
    · cases h; exact ⟨[], by simp, by simp⟩

private theorem publishMajor_merges {maxLevel : Nat} {scope : Scope K} {gen : FileId}
    {st : MajorState K V}
    (h : (if option.isThresholdExceededMajor version 0 then
        majorCompaction io option maxLevel version scope.min scope.max gen
      else .ok ⟨scope.min, scope.max, [], [], [], gen⟩) = .ok st) :
    ∀ e ∈ st.edits, VersionEdit.isMerge e := by
  split at h
  · obtain ⟨edits, hedits, merge⟩ := majorLoop_edits _ _ _ h
    rw [hedits]
    exact merge
  · cases h; exact fun _ he => (List.not_mem_nil _ he).elim

end Major

/-! ## Batches -/

/-- The edits one flush publishes: the `Add` of its level-0 table first, then what major
compaction emits, and the stamp `increase_ts` took last. -/
structure Batch (K : Type) where
  scope : Scope K
  merged : List (VersionEdit K)
  ts : Timestamp
  merged_isMerge : ∀ e ∈ merged, VersionEdit.isMerge e

def Batch.edits (b : Batch K) : List (VersionEdit K) :=
  .add 0 b.scope :: b.merged ++ [.latestTimeStamp b.ts]

/-- What a call does to the version set: leaves it, takes the next stamp and publishes
nothing, or, only when `ok` holds, takes the next stamp and publishes one batch carrying
it. -/
def Publishes (vs vs' : VersionSet K) (ok : Prop) : Prop :=
  vs' = vs ∨ vs' = vs.increaseTs.1 ∨
    ok ∧ ∃ b : Batch K, b.ts = vs.ts ∧ vs' = vs.increaseTs.1.applyEdits b.edits

theorem Publishes.refl (vs : VersionSet K) (ok : Prop) : Publishes vs vs ok := .inl rfl

private theorem Publishes.mono {vs vs' : VersionSet K} {ok ok' : Prop} (h : Publishes vs vs' ok)
    (imp : ok → ok') : Publishes vs vs' ok' := by
  rcases h with h | h | ⟨hok, b⟩
  exacts [.inl h, .inr (.inl h), .inr (.inr ⟨imp hok, b⟩)]

section Call

variable (io : CompactorIo K V) (option : DbOption) (maxLevel : Nat)

theorem freeze_versions (wal : WalIo K V) (isManual : Bool) (s : DbState K V) :
    (freeze wal option isManual s).1.versions = s.versions := by
  rcases freeze_cases wal option isManual s with ⟨-, h⟩ | ⟨-, _, -, h⟩ <;> rw [h]

private theorem publish_publishes (chunkNum : Nat) (scope : Scope K) (s : DbState K V) :
    Publishes s.versions (publish io option maxLevel chunkNum scope s).1.versions
      ((publish io option maxLevel chunkNum scope s).2 = .ok ()) := by
  unfold publish
  dsimp only
  split
  · exact .refl _ _
  · rename_i st hmajor
    split
    · exact .inr (.inl rfl)
    · exact .inr (.inr ⟨rfl, ⟨scope, st.edits, s.versions.ts, publishMajor_merges hmajor⟩, rfl, rfl⟩)

private theorem flushQueue_publishes (isManual : Bool) (s : DbState K V) :
    Publishes s.versions (flushQueue io option maxLevel isManual s).1.versions
      ((flushQueue io option maxLevel isManual s).2 = .ok ()) := by
  rcases flushQueue_cases io option maxLevel isManual s with
    ⟨-, h⟩ | ⟨-, ⟨e, h⟩ | ⟨-, -, h⟩ | ⟨scope, file, -, -, h⟩⟩ <;> rw [h]
  · exact .refl _ _
  · exact .refl _ _
  · exact .refl _ _
  · exact publish_publishes io option maxLevel _ scope _

private theorem checkThenCompaction_publishes (isManual : Bool) (s : DbState K V) :
    Publishes s.versions (checkThenCompaction io option maxLevel isManual s).1.versions
      ((checkThenCompaction io option maxLevel isManual s).2 = .ok () ∨
        (checkThenCompaction io option maxLevel isManual s).2 = .error .panic ∧
          isManual = true ∧ io.rewriteFails = true) := by
  unfold checkThenCompaction
  have frozen := freeze_versions option io.wal isManual s
  split <;> rename_i hfreeze <;> simp only [hfreeze] at frozen
  · exact .inl frozen
  · exact .inl frozen
  · rename_i s₁
    have flushed := flushQueue_publishes io option maxLevel isManual s₁
    rw [frozen] at flushed
    split <;> rename_i hflush <;> rw [hflush] at flushed
    · exact flushed.mono fun h => by cases h
    · refine flushed.mono fun _ => ?_
      cases isManual <;> cases io.rewriteFails <;> simp

end Call

/-- A call that fails publishes no edit and leaves the published version as it was,
unless it is a manual call whose manifest rewrite panics after the flush published. -/
theorem checkThenCompaction_fails_unpublished {io : CompactorIo K V} {option : DbOption}
    {maxLevel : Nat} {isManual : Bool} {s s' : DbState K V} {e : Failure}
    (h : checkThenCompaction io option maxLevel isManual s = (s', .error e)) :
    (s'.versions.current = s.versions.current ∧ s'.versions.applied = s.versions.applied) ∨
      (e = .panic ∧ isManual = true ∧ io.rewriteFails = true) := by
  have published := checkThenCompaction_publishes io option maxLevel isManual s
  rw [h] at published
  rcases published with hvs | hvs | ⟨ok | ⟨ok, manual, fails⟩, -⟩
  · exact .inl ⟨congrArg (·.current) hvs, congrArg (·.applied) hvs⟩
  · exact .inl ⟨congrArg (·.current) hvs, congrArg (·.applied) hvs⟩
  · cases ok
  · cases ok; exact .inr ⟨rfl, manual, fails⟩

theorem checkThenCompaction_fails_unpublished_of_failed_write :
    ∃ s', checkThenCompaction (compactorIo false (some .io)) (testOption 1 1) 7 true oneEntryState =
        (s', .error (.error .io)) ∧
      ((s'.versions.current = oneEntryState.versions.current ∧
          s'.versions.applied = oneEntryState.versions.applied) ∨
        (Failure.error CompactionError.io = .panic ∧ true = true ∧
          (compactorIo false (some .io)).rewriteFails = true)) := by
  obtain ⟨s', h⟩ : ∃ s', checkThenCompaction (compactorIo false (some .io)) (testOption 1 1) 7 true
      oneEntryState = (s', .error (.error .io)) := ⟨_, rfl⟩
  exact ⟨s', h, checkThenCompaction_fails_unpublished h⟩

/- A manual call whose manifest rewrite fails panics after its flush published. -/
example :
    (checkThenCompaction { compactorIo false none with rewriteFails := true } (testOption 1 1) 7
        true oneEntryState).2 = .error .panic ∧
      (checkThenCompaction { compactorIo false none with rewriteFails := true } (testOption 1 1) 7
        true oneEntryState).1.versions.applied ≠ [] :=
  ⟨rfl, List.cons_ne_nil _ _⟩

/-! ## The log over runs -/

/-- The log of applied edits is whole batches, oldest first, whose stamps rise and stay
below the counter. -/
def Batched (vs : VersionSet K) : Prop :=
  ∃ batches : List (Batch K), vs.applied = (batches.map Batch.edits).flatten ∧
    (batches.map Batch.ts).Pairwise (· < ·) ∧ ∀ b ∈ batches, b.ts < vs.ts

omit [LinearOrder K] in
private theorem increaseTs_toNat {vs : VersionSet K} (room : vs.ts.val.toNat + 1 < 4294967296) :
    vs.increaseTs.1.ts.val.toNat = vs.ts.val.toNat + 1 := by
  show (vs.ts.val.toBitVec + 1).toNat = vs.ts.val.toBitVec.toNat + 1
  rw [BitVec.toNat_add]
  exact Nat.mod_eq_of_lt room

private theorem Publishes.batched {vs vs' : VersionSet K} {ok : Prop} (h : Publishes vs vs' ok)
    (inv : Batched vs) (room : vs.ts.val.toNat + 1 < 4294967296) :
    Batched vs' ∧ vs'.ts.val.toNat ≤ vs.ts.val.toNat + 1 := by
  have up := increaseTs_toNat room
  obtain ⟨batches, log, rising, below⟩ := inv
  have below' : ∀ b ∈ batches, b.ts < vs.increaseTs.1.ts := fun b hb =>
    (below b hb).trans (Timestamp.lt_def.mpr (by omega))
  rcases h with rfl | rfl | ⟨-, b, hts, rfl⟩
  · exact ⟨⟨batches, log, rising, below⟩, by omega⟩
  · exact ⟨⟨batches, log, rising, below'⟩, up.le⟩
  · refine ⟨⟨batches ++ [b], ?_, ?_, ?_⟩, up.le⟩
    · simp [VersionSet.applyEdits, VersionSet.increaseTs, log]
    · rw [List.map_append, List.pairwise_append]
      refine ⟨rising, List.pairwise_singleton _ _, fun t ht u hu => ?_⟩
      obtain ⟨c, hc, rfl⟩ := List.mem_map.mp ht
      rw [List.mem_singleton.mp hu, hts]
      exact below c hc
    · intro c hc
      rcases List.mem_append.mp hc with hc | hc
      · exact below' c hc
      · rw [List.mem_singleton.mp hc, hts]
        exact Timestamp.lt_def.mpr (by simp only [VersionSet.applyEdits]; omega)

def calls : List (Step K V) → Nat
  | [] => 0
  | .append _ _ :: rest => calls rest
  | .compact _ _ :: rest => calls rest + 1

private theorem runPastFailures_batched {option : DbOption} {maxLevel : Nat}
    {checkIfExceed : Option V → Bool} (steps : List (Step K V)) {s : DbState K V}
    (inv : Batched s.versions) (room : s.versions.ts.val.toNat + calls steps < 4294967296) :
    Batched (runPastFailures option maxLevel checkIfExceed s steps).versions := by
  induction steps generalizing s with
  | nil => exact inv
  | cons step rest ih =>
    cases step with
    | append io a =>
      simp only [calls] at room
      simp only [runPastFailures]
      split
      exacts [ih inv room, ih inv room]
    | compact io isManual =>
      simp only [calls] at room
      obtain ⟨inv', up⟩ :=
        (checkThenCompaction_publishes io option maxLevel isManual s).batched inv (by omega)
      exact ih inv' (by omega)

/-- In every run from a new store with fewer than `2^32` compaction calls, failed ones
included, the log of applied edits is whole batches, each the `Add` of one level-0 table,
the edits of major compaction and a stamp, whose stamps rise and stay below the counter. -/
theorem runPastFailures_edits_batched {option : DbOption} {maxLevel : Nat}
    {checkIfExceed : Option V → Bool} (steps : List (Step K V))
    (room : calls steps < 4294967296) :
    Batched (runPastFailures option maxLevel checkIfExceed (DbState.new option) steps).versions :=
  runPastFailures_batched steps ⟨[], rfl, List.Pairwise.nil, fun _ hb => (List.not_mem_nil _ hb).elim⟩
    (by simpa [DbState.new, EPOCH] using room)

theorem runPastFailures_edits_batched_of_failed_flush :
    calls failedFlushRun < 4294967296 ∧
      Batched (runPastFailures (testOption 1 1) 7 (fun _ => false) (DbState.new (testOption 1 1))
        failedFlushRun).versions :=
  ⟨by decide, runPastFailures_edits_batched failedFlushRun (by decide)⟩

/- At the top of the `u32` range a flush publishes its batch with the stamp `u32::MAX`
and wraps the counter to `EPOCH`, below the stamp just published. -/
example :
    (checkThenCompaction (compactorIo false none) (testOption 1 1) 7 true
      { oneEntryState with versions := { oneEntryState.versions with ts := u32Max } }).1.versions.ts =
      EPOCH := rfl

end Tonbo.Compaction.EditLog
