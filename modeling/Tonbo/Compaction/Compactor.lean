/- The compaction step of the store: freeze the mutable table, flush the oldest frozen
   tables to level 0, merge down, and publish the edits.
   source: src/src/compaction/mod.rs (`Compactor::check_then_compaction`),
           src/src/inmem/mutable.rs (`Mutable::new`, `Mutable::into_immutable`)
   digest: the state the call leaves on every path, success or failure, and the runs of
           appends and calls that the write pipeline is made of. -/

import Tonbo.Inmem.MutableTable
import Tonbo.Compaction.Major

set_option autoImplicit false
set_option relaxedAutoImplicit false

namespace Tonbo.Compaction.Compactor

open Tonbo.Key Tonbo.Skiplist Tonbo.Levels Tonbo.Inmem.ImmutableTable Tonbo.Inmem.MutableTable
  Tonbo.Compaction.Minor Tonbo.Compaction.Select Tonbo.Compaction.Major

variable {K V : Type} [LinearOrder K]

/-- `DbStorage`, the fields `check_then_compaction` reads and writes: the mutable table,
the queue of frozen tables with their log ids, and the log ids of the files recovered at
open. -/
structure DbStorage (K V : Type) [LinearOrder K] where
  mutable : Mutable K V
  immutables : List (Option FileId × Immutable K V)
  recoverWalIds : Option (List FileId)

/-- Modelled from the spec: the `VersionSet` as compaction uses it: the current version,
the timestamp counter of the version, and the edits applied so far, oldest first. -/
structure VersionSet (K : Type) where
  current : Version K
  ts : Timestamp
  applied : List (VersionEdit K)

/-- Modelled from the spec: `VersionSet::apply_edits`, publishing the version the edits
make. -/
def VersionSet.applyEdits (vs : VersionSet K) (edits : List (VersionEdit K)) : VersionSet K :=
  { vs with current := vs.current.applyEdits edits, applied := vs.applied ++ edits }

/-- Modelled from the spec: `Version::increase_ts`, fetch-and-increment of the counter. -/
def VersionSet.increaseTs (vs : VersionSet K) : VersionSet K × Timestamp :=
  ({ vs with ts := ⟨vs.ts.val + 1⟩ }, vs.ts)

/-- What a compaction call changes: the storage, the version set, the next id
`generate_file_id` hands out, and the table files written so far. -/
structure DbState (K V : Type) [LinearOrder K] where
  storage : DbStorage K V
  versions : VersionSet K
  nextGen : FileId
  files : List (TableFile K V)

/-- The collaborators of one call: the log of the mutable table, the writer of the
level-0 table, those of major compaction, the error of publishing the edits if it fails,
and whether rewriting the manifest fails. -/
structure CompactorIo (K V : Type) where
  wal : WalIo K V
  tables : TableIo
  major : MajorIo K V
  applyFails : Option CompactionError
  rewriteFails : Bool

/-- The first part of `check_then_compaction`: a non-empty mutable table is swapped for a
fresh one, then frozen (its log flushed) onto the queue; a call that is not manual stops
at an empty one (`false`). -/
def freeze (io : WalIo K V) (option : DbOption) (isManual : Bool) (s : DbState K V) :
    DbState K V × Except Failure Bool :=
  if !s.storage.mutable.isEmpty then
    let swapped : DbState K V :=
      { s with storage := { s.storage with mutable := Mutable.new option.useWal s.nextGen },
               nextGen := if option.useWal then s.nextGen + 1 else s.nextGen }
    match s.storage.mutable.intoImmutable io with
    | .error _ => (swapped, .error (.error .logger))
    | .ok frozen =>
      ({ swapped with storage := { swapped.storage with
          immutables := swapped.storage.immutables ++ [frozen] } }, .ok true)
  else if !isManual then (s, .ok false)
  else (s, .ok true)

/-- The edits and the state after a successful minor compaction: major compaction when
level 0 of the current version is over its threshold, then the `Add` of the new table
first and the timestamp last, published, and the flushed tables spliced off the queue. -/
def publish (io : CompactorIo K V) (option : DbOption) (maxLevel : Nat) (chunkNum : Nat)
    (scope : Scope K) (s : DbState K V) : DbState K V × Except Failure Unit :=
  let version := s.versions.current
  let major := if option.isThresholdExceededMajor version 0 then
      majorCompaction io.major option maxLevel version scope.min scope.max s.nextGen
    else .ok ⟨scope.min, scope.max, [], [], [], s.nextGen⟩
  match major with
  | .error e => (s, .error e)
  | .ok st =>
    let (versions, ts) := s.versions.increaseTs
    let s := { s with versions := versions, nextGen := st.nextGen, files := s.files ++ st.files }
    match io.applyFails with
    | some e => (s, .error (.error e))
    | none =>
      ({ s with versions := s.versions.applyEdits (.add 0 scope :: st.edits ++ [.latestTimeStamp ts]),
                storage := { s.storage with immutables := s.storage.immutables.drop chunkNum } },
        .ok ())

/-- The flush of `check_then_compaction`, when the call is manual and the queue is not
empty or the queue is longer than `immutable_chunk_max_num`: the recovered log ids are
taken, and the oldest `chunk_num` frozen tables are written as one level-0 table. -/
def flushQueue (io : CompactorIo K V) (option : DbOption) (maxLevel : Nat) (isManual : Bool)
    (s : DbState K V) : DbState K V × Except Failure Unit :=
  if (isManual && !s.storage.immutables.isEmpty) ||
      decide (s.storage.immutables.length > option.immutableChunkMaxNum) then
    let recoverWalIds := s.storage.recoverWalIds
    let s := { s with storage := { s.storage with recoverWalIds := none } }
    let chunkNum := if isManual then s.storage.immutables.length else option.immutableChunkNum
    match slice s.storage.immutables 0 chunkNum with
    | .error e => (s, .error e)
    | .ok excess =>
      match minorCompaction option io.tables s.nextGen recoverWalIds excess with
      | .error e => (s, .error (.error e))
      | .ok none =>
        ({ s with storage := { s.storage with
            immutables := s.storage.immutables.drop chunkNum } }, .ok ())
      | .ok (some (scope, file)) =>
        publish io option maxLevel chunkNum scope
          { s with nextGen := s.nextGen + 1, files := s.files ++ [file] }
  else (s, .ok ())

/-- `Compactor::check_then_compaction`: the state the call leaves, with its result; a
manual call ends by rewriting the manifest, and panics when that fails. -/
def checkThenCompaction (io : CompactorIo K V) (option : DbOption) (maxLevel : Nat)
    (isManual : Bool) (s : DbState K V) : DbState K V × Except Failure Unit :=
  match freeze io.wal option isManual s with
  | (s, .error e) => (s, .error e)
  | (s, .ok false) => (s, .ok ())
  | (s, .ok true) =>
    match flushQueue io option maxLevel isManual s with
    | (s, .error e) => (s, .error e)
    | (s, .ok ()) => (s, if isManual && io.rewriteFails then .error .panic else .ok ())

/-! ## Runs of the write pipeline -/

def DbState.new (option : DbOption) : DbState K V :=
  ⟨⟨Mutable.new option.useWal 0, [], none⟩, ⟨.ofLevels [], EPOCH, []⟩, 1, []⟩

/-- One step of a run: an append to the mutable table, or a call of
`check_then_compaction`. -/
inductive Step (K V : Type) where
  | append (io : WalIo K V) (a : Append K V)
  | compact (io : CompactorIo K V) (isManual : Bool)

/-- The steps run in order from `s`, each on the state the previous one left; `none` at
the first that fails. The trigger's verdict that `append` returns is not used. -/
def run (option : DbOption) (maxLevel : Nat) (checkIfExceed : Option V → Bool) :
    DbState K V → List (Step K V) → Option (DbState K V)
  | s, [] => some s
  | s, .append io a :: rest =>
    match s.storage.mutable.append io checkIfExceed a.logType a.key a.ts a.value with
    | .ok (m, _) =>
      run option maxLevel checkIfExceed { s with storage := { s.storage with mutable := m } } rest
    | .error _ => none
  | s, .compact io isManual :: rest =>
    match checkThenCompaction io option maxLevel isManual s with
    | (s, .ok ()) => run option maxLevel checkIfExceed s rest
    | (_, .error _) => none

/-- Modelled from the spec: the steps run in order from `s` by the compaction task, which
aborts a failed call back to `Idle` and goes on from the state the call left; a failed
append leaves the state as it was. -/
def runPastFailures (option : DbOption) (maxLevel : Nat) (checkIfExceed : Option V → Bool) :
    DbState K V → List (Step K V) → DbState K V
  | s, [] => s
  | s, .append io a :: rest =>
    match s.storage.mutable.append io checkIfExceed a.logType a.key a.ts a.value with
    | .ok (m, _) => runPastFailures option maxLevel checkIfExceed
        { s with storage := { s.storage with mutable := m } } rest
    | .error _ => runPastFailures option maxLevel checkIfExceed s rest
  | s, .compact io isManual :: rest =>
    runPastFailures option maxLevel checkIfExceed
      (checkThenCompaction io option maxLevel isManual s).1 rest

def appended : List (Step K V) → List (Row K V)
  | [] => []
  | .append _ a :: rest => a.row :: appended rest
  | .compact _ _ :: rest => appended rest

def level0Adds : List (VersionEdit K) → List FileId
  | [] => []
  | .add 0 scope :: rest => scope.gen :: level0Adds rest
  | _ :: rest => level0Adds rest

def queuedRows (queue : List (Option FileId × Immutable K V)) : List (Row K V) :=
  (queue.map fun entry => entry.2.rows).flatten

def flushedRows (files : List (TableFile K V)) (applied : List (VersionEdit K)) :
    List (Row K V) :=
  ((files.filter fun f => f.level = 0 ∧ f.gen ∈ level0Adds applied).map (·.rows)).flatten

/-- The entries a state holds, with repetition: the mutable table's, each queued frozen
table's, and each published level-0 table's. -/
def holdings (s : DbState K V) : List (Row K V) :=
  s.storage.mutable.data.entries ++ queuedRows s.storage.immutables ++
    flushedRows s.files s.versions.applied

def FreshGens (s : DbState K V) : Prop := ∀ f ∈ s.files, f.level = 0 → f.gen < s.nextGen

/-! ## What a successful call does to the entries held -/

omit [LinearOrder K] in
@[simp] theorem level0Adds_append (a b : List (VersionEdit K)) :
    level0Adds (a ++ b) = level0Adds a ++ level0Adds b := by
  induction a with
  | nil => rfl
  | cons e rest ih =>
    cases e with
    | add l scope => cases l <;> simp [level0Adds, ih]
    | remove l g => simp [level0Adds, ih]
    | latestTimeStamp ts => simp [level0Adds, ih]

omit [LinearOrder K] in
private theorem level0Adds_eq_nil {edits : List (VersionEdit K)}
    (h : ∀ e ∈ edits, ∀ scope, e ≠ .add 0 scope) : level0Adds edits = [] := by
  induction edits with
  | nil => rfl
  | cons e rest ih =>
    have hr := ih fun x hx => h x (List.mem_cons_of_mem _ hx)
    cases e with
    | add l scope =>
      cases l with
      | zero => exact absurd rfl (h _ (List.mem_cons_self _ _) scope)
      | succ l => simpa [level0Adds] using hr
    | remove l g => simpa [level0Adds] using hr
    | latestTimeStamp ts => simpa [level0Adds] using hr

@[simp] theorem queuedRows_append (a b : List (Option FileId × Immutable K V)) :
    queuedRows (a ++ b) = queuedRows a ++ queuedRows b := by
  simp [queuedRows]

theorem publishMajor_grows {io : MajorIo K V} {option : DbOption} {maxLevel : Nat}
    {version : Version K} {scope : Scope K} {gen : FileId} {st : MajorState K V}
    (h : (if option.isThresholdExceededMajor version 0 then
        majorCompaction io option maxLevel version scope.min scope.max gen
      else .ok ⟨scope.min, scope.max, [], [], [], gen⟩) = .ok st) :
    MajorState.Grows ⟨scope.min, scope.max, [], [], [], gen⟩ st := by
  split at h
  · exact majorCompaction_grows h
  · cases h; exact .refl _

theorem publish_ok {io : CompactorIo K V} {option : DbOption} {maxLevel chunkNum : Nat}
    {scope : Scope K} {s s' : DbState K V}
    (h : publish io option maxLevel chunkNum scope s = (s', .ok ())) :
    ∃ (st : MajorState K V) (ts : Timestamp),
      MajorState.Grows ⟨scope.min, scope.max, [], [], [], s.nextGen⟩ st ∧
      s'.storage = { s.storage with immutables := s.storage.immutables.drop chunkNum } ∧
      s'.versions.applied = s.versions.applied ++ (.add 0 scope :: st.edits ++ [.latestTimeStamp ts]) ∧
      s'.nextGen = st.nextGen ∧ s'.files = s.files ++ st.files := by
  unfold publish at h
  dsimp only at h
  split at h
  · cases h
  · rename_i st hmajor
    split at h
    · cases h
    · cases h
      exact ⟨st, _, publishMajor_grows hmajor, rfl, rfl, rfl, rfl⟩

omit [LinearOrder K] in
private theorem flushedRows_publish {files extra : List (TableFile K V)} {applied edits : List (VersionEdit K)}
    {file : TableFile K V} {gen : FileId} {scope : Scope K} {ts : Timestamp}
    (below : ∀ f ∈ files, f.level = 0 → f.gen < gen) (level0 : file.level = 0) (hgen : file.gen = gen)
    (hscope : scope.gen = gen) (deeper : ∀ f ∈ extra, f.level ≠ 0) (noAdd : level0Adds edits = []) :
    flushedRows (files ++ [file] ++ extra) (applied ++ (.add 0 scope :: edits ++ [.latestTimeStamp ts])) =
      flushedRows files applied ++ file.rows := by
  have adds : level0Adds (applied ++ (.add 0 scope :: edits ++ [.latestTimeStamp ts])) =
      level0Adds applied ++ [gen] := by
    simp [level0Adds, noAdd, hscope]
  have old : files.filter (fun f => f.level = 0 ∧ f.gen ∈ level0Adds applied ++ [gen]) =
      files.filter (fun f => f.level = 0 ∧ f.gen ∈ level0Adds applied) :=
    List.filter_congr fun f hf => by
      by_cases h0 : f.level = 0
      · have := (below f hf h0).ne
        simp [h0, this]
      · simp [h0]
  have new : extra.filter (fun f => f.level = 0 ∧ f.gen ∈ level0Adds applied ++ [gen]) = [] :=
    List.filter_eq_nil_iff.mpr fun f hf => by simp [deeper f hf]
  unfold flushedRows
  rw [adds, List.filter_append, List.filter_append, old, new]
  simp [level0, hgen]

theorem freeze_ok {io : WalIo K V} {option : DbOption} {isManual b : Bool} {s s' : DbState K V}
    (h : freeze io option isManual s = (s', .ok b)) :
    (holdings s').Perm (holdings s) ∧ (FreshGens s → FreshGens s') ∧ (b = false → isManual = false) := by
  unfold freeze at h
  split at h
  · cases hfrozen : s.storage.mutable.intoImmutable io with
    | error e => rw [hfrozen] at h; cases h
    | ok frozen =>
      rw [hfrozen] at h
      cases h
      refine ⟨?_, fun fresh f hf h0 => ?_, fun h => by cases h⟩
      · have frozenRows : queuedRows [frozen] = s.storage.mutable.data.entries := by
          simp [queuedRows, Mutable.intoImmutable_ok hfrozen]
        simp only [holdings, Mutable.new_data, SkipMap.empty_entries, List.nil_append,
          queuedRows_append, frozenRows]
        exact List.perm_append_comm.append_right _
      · have := fresh f hf h0
        show f.gen < if option.useWal then s.nextGen + 1 else s.nextGen
        split
        exacts [Nat.lt_succ_of_lt this, this]
  · split at h
    · rename_i automatic
      cases h; exact ⟨.refl _, id, fun _ => by simpa using automatic⟩
    · cases h; exact ⟨.refl _, id, fun h => by cases h⟩

private theorem publish_written {io : CompactorIo K V} {option : DbOption} {maxLevel chunkNum : Nat}
    {scope : Scope K} {file : TableFile K V} (s : DbState K V) {s' : DbState K V}
    (h : publish io option maxLevel chunkNum scope
      { s with nextGen := s.nextGen + 1, files := s.files ++ [file] } = (s', .ok ()))
    (level0 : file.level = 0) (fileGen : file.gen = s.nextGen) (hscope : scope.gen = s.nextGen) :
    s'.storage = { s.storage with immutables := s.storage.immutables.drop chunkNum } ∧
      (FreshGens s → flushedRows s'.files s'.versions.applied =
        flushedRows s.files s.versions.applied ++ file.rows ∧ FreshGens s') := by
  obtain ⟨st, ts, ⟨hnext, ⟨stFiles, hst, deeper⟩, edits, hedits, noAdd⟩, hstorage, happlied, hgen,
    hfiles⟩ := publish_ok h
  dsimp only at hstorage happlied hfiles hnext hst hedits
  rw [List.nil_append] at hst hedits
  refine ⟨hstorage, fun fresh => ⟨?_, fun f hf h0 => ?_⟩⟩
  · rw [hfiles, happlied, hst, hedits]
    exact flushedRows_publish fresh level0 fileGen hscope deeper (level0Adds_eq_nil noAdd)
  · rw [hfiles, hst, List.mem_append, List.mem_append, List.mem_singleton] at hf
    rw [hgen]
    rcases hf with (hf | rfl) | hf
    · exact (fresh f hf h0).trans_le (Nat.le_of_succ_le hnext)
    · rw [fileGen]; exact hnext
    · exact absurd h0 (deeper f hf)

private theorem flushQueue_ok {io : CompactorIo K V} {option : DbOption} {maxLevel : Nat} {isManual : Bool}
    {s s' : DbState K V} (h : flushQueue io option maxLevel isManual s = (s', .ok ())) :
    (isManual → s'.storage.immutables = []) ∧
      (FreshGens s → (holdings s').Perm (holdings s) ∧ FreshGens s') := by
  unfold flushQueue at h
  split at h
  · dsimp only at h
    set c := if isManual then s.storage.immutables.length else option.immutableChunkNum with hc
    have manual : isManual → s.storage.immutables.drop c = [] := fun hm => by simp [hc, hm]
    split at h
    · cases h
    · rename_i excess hslice
      obtain ⟨hexcess, -, -⟩ := slice_ok hslice
      simp only [List.drop_zero, Nat.sub_zero] at hexcess
      split at h
      · cases h
      · -- nothing to flush: the excess is empty
        cases h
        have keep : s.storage.immutables.drop c = s.storage.immutables := by
          have empty : s.storage.immutables.take c = [] := hexcess ▸ minorCompaction_none ‹_›
          rcases List.take_eq_nil_iff.mp empty with h0 | h0 <;> simp [h0]
        exact ⟨manual, fun fresh => ⟨by simp only [holdings, keep]; exact .refl _, fresh⟩⟩
      · rename_i scope file hminor
        obtain ⟨hfile, hscope⟩ := minorCompaction_rows hminor
        have level0 : file.level = 0 := by rw [hfile]
        have fileGen : file.gen = s.nextGen := by rw [hfile]
        obtain ⟨hstorage, published⟩ := publish_written
          { s with storage := { s.storage with recoverWalIds := none } } h level0 fileGen hscope
        refine ⟨fun hm => by rw [hstorage]; exact manual hm, fun fresh => ?_⟩
        obtain ⟨flushed, fresh'⟩ := published fresh
        have written : file.rows = queuedRows (s.storage.immutables.take c) := by
          rw [hfile, hexcess]; rfl
        have queued : queuedRows s.storage.immutables = queuedRows (s.storage.immutables.take c) ++
            queuedRows (s.storage.immutables.drop c) := by
          rw [← queuedRows_append, List.take_append_drop]
        refine ⟨?_, fresh'⟩
        simp only [holdings, flushed, hstorage, queued, written, List.append_assoc]
        refine List.Perm.append_left _ ?_
        rw [← List.append_assoc]
        exact List.perm_append_comm
  · cases h
    rename_i cond
    exact ⟨fun hm => (by simpa [hm] using cond : _ ∧ _).1, fun fresh => ⟨.refl _, fresh⟩⟩

theorem checkThenCompaction_ok {io : CompactorIo K V} {option : DbOption} {maxLevel : Nat}
    {isManual : Bool} {s s' : DbState K V}
    (h : checkThenCompaction io option maxLevel isManual s = (s', .ok ())) :
    (isManual → s'.storage.immutables = []) ∧
      (FreshGens s → (holdings s').Perm (holdings s) ∧ FreshGens s') := by
  unfold checkThenCompaction at h
  split at h
  · cases h
  · rename_i s₁ hfreeze
    cases h
    obtain ⟨perm, fresh, stopped⟩ := freeze_ok hfreeze
    exact ⟨fun hm => absurd (stopped rfl) (by simp [hm]), fun h => ⟨perm, fresh h⟩⟩
  · rename_i s₁ hfreeze
    obtain ⟨perm, fresh, -⟩ := freeze_ok hfreeze
    split at h
    · cases h
    · rename_i s₂ hflush
      have : s' = s₂ := by split at h <;> cases h; rfl
      subst this
      obtain ⟨manual, flushed⟩ := flushQueue_ok hflush
      exact ⟨manual, fun h => ⟨(flushed (fresh h)).1.trans perm, (flushed (fresh h)).2⟩⟩

private theorem holdings_append {s : DbState K V} {m : Mutable K V} {row : Row K V}
    (hdata : m.data = s.storage.mutable.data.insert row.1 row.2)
    (fresh : ∀ e ∈ holdings s, e.1 ≠ row.1) :
    (holdings { s with storage := { s.storage with mutable := m } }).Perm (row :: holdings s) := by
  have absent : ∀ e ∈ s.storage.mutable.data.entries, e.1 ≠ row.1 := fun e he =>
    fresh e (List.mem_append_left _ (List.mem_append_left _ he))
  have inserted := insertEntry_perm row.1 row.2 s.storage.mutable.data.sorted
  rw [List.filter_eq_self.mpr fun e he => by simpa using absent e he] at inserted
  simp only [holdings, hdata, SkipMap.insert_entries, List.append_assoc]
  exact inserted.append_right _

theorem run_holdings {option : DbOption} {maxLevel : Nat} {checkIfExceed : Option V → Bool}
    (steps : List (Step K V)) (s : DbState K V) {s' : DbState K V} (acc : List (Row K V))
    (ran : run option maxLevel checkIfExceed s steps = some s')
    (inv : (holdings s).Perm acc) (fresh : FreshGens s)
    (distinct : ((acc ++ appended steps).map (·.1)).Nodup) :
    (holdings s').Perm (acc ++ appended steps) := by
  induction steps generalizing s acc with
  | nil => cases ran; simpa [appended] using inv
  | cons step rest ih =>
    cases step with
    | append io a =>
      simp only [run] at ran
      split at ran
      · rename_i m b happend
        have distinct' : ((acc ++ [a.row] ++ appended rest).map (·.1)).Nodup := by
          simpa [appended] using distinct
        have absent : ∀ e ∈ holdings s, e.1 ≠ a.row.1 := fun e he heq => by
          have : a.row.1 ∈ acc.map (·.1) := heq ▸ List.mem_map_of_mem _ (inv.mem_iff.mp he)
          simp only [List.map_append, List.append_assoc] at distinct'
          exact (List.nodup_append.mp distinct').2.2 this (by simp)
        have := ih _ (acc ++ [a.row]) ran
          ((holdings_append (Mutable.append_ok happend).1 absent).trans
            ((inv.cons _).trans (List.perm_append_singleton _ _).symm))
          fresh distinct'
        simpa [appended] using this
      · cases ran
    | compact io isManual =>
      simp only [run] at ran
      split at ran
      · rename_i s₁ hcall
        obtain ⟨perm, fresh₁⟩ := (checkThenCompaction_ok hcall).2 fresh
        simpa [appended] using ih s₁ acc ran (perm.trans inv) fresh₁ (by simpa [appended] using distinct)
      · cases ran

/-- In a run from a new store whose appends write pairwise distinct timestamped keys,
the state holds exactly the appended entries, each once: in the mutable table, in one
queued frozen table, or in one published level-0 table. A successful manual call leaves
the queue empty. -/
theorem run_holds_each_entry_once {option : DbOption} {maxLevel : Nat}
    {checkIfExceed : Option V → Bool} {steps : List (Step K V)} {s : DbState K V}
    (distinct : ((appended steps).map (·.1)).Nodup)
    (ran : run option maxLevel checkIfExceed (DbState.new option) steps = some s) :
    (holdings s).Nodup ∧ (∀ e, e ∈ holdings s ↔ e ∈ appended steps) ∧
      ∀ (io : CompactorIo K V) (s₁ s₂ : DbState K V),
        checkThenCompaction io option maxLevel true s₁ = (s₂, .ok ()) →
          s₂.storage.immutables = [] := by
  have perm := run_holdings steps _ [] ran
    (by simp [holdings, DbState.new, queuedRows, flushedRows]) (fun _ hf => by cases hf)
    (by simpa using distinct)
  rw [List.nil_append] at perm
  have nodup : (appended steps).Nodup := List.Nodup.of_map _ distinct
  exact ⟨perm.nodup_iff.mpr nodup, fun _ => perm.mem_iff, fun _ _ _ h => (checkThenCompaction_ok h).1 rfl⟩

/-! ## Every outcome of a call

What each part of `check_then_compaction` leaves, on success and on failure alike; the
invariants of whole runs are derived from these. -/

theorem freeze_cases (io : WalIo K V) (option : DbOption) (isManual : Bool) (s : DbState K V) :
    (s.storage.mutable.isEmpty = true ∧ freeze io option isManual s = (s, .ok isManual)) ∨
      s.storage.mutable.isEmpty = false ∧
        ∃ queued : List (Option FileId × Immutable K V),
          ((queued = [(s.storage.mutable.wal, .new s.storage.mutable.data)] ∧
              (freeze io option isManual s).2 = .ok true) ∨
            (queued = [] ∧ (freeze io option isManual s).2 = .error (.error .logger))) ∧
          (freeze io option isManual s).1 =
            { s with storage := { s.storage with mutable := Mutable.new option.useWal s.nextGen,
                                                 immutables := s.storage.immutables ++ queued },
                     nextGen := if option.useWal then s.nextGen + 1 else s.nextGen } := by
  unfold freeze
  cases hempty : s.storage.mutable.isEmpty
  · refine .inr ⟨rfl, ?_⟩
    rw [if_pos (show (!false) = true from rfl)]
    cases hfrozen : s.storage.mutable.intoImmutable io with
    | error e => exact ⟨[], .inr ⟨rfl, rfl⟩, by simp⟩
    | ok frozen => exact ⟨_, .inl ⟨Mutable.intoImmutable_eq hfrozen ▸ rfl, rfl⟩, rfl⟩
  · exact .inl ⟨rfl, by cases isManual <;> rfl⟩

theorem publish_cases (io : CompactorIo K V) (option : DbOption) (maxLevel chunkNum : Nat)
    (scope : Scope K) (s : DbState K V) :
    (publish io option maxLevel chunkNum scope s).1 = s ∨
      ∃ st : MajorState K V,
        (if option.isThresholdExceededMajor s.versions.current 0 then
            majorCompaction io.major option maxLevel s.versions.current scope.min scope.max s.nextGen
          else .ok ⟨scope.min, scope.max, [], [], [], s.nextGen⟩) = .ok st ∧
        ((publish io option maxLevel chunkNum scope s).1 =
            { s with versions := s.versions.increaseTs.1, nextGen := st.nextGen,
                     files := s.files ++ st.files } ∨
          (publish io option maxLevel chunkNum scope s).1 =
            { s with versions := s.versions.increaseTs.1.applyEdits
                       (.add 0 scope :: st.edits ++ [.latestTimeStamp s.versions.ts]),
                     storage := { s.storage with immutables := s.storage.immutables.drop chunkNum },
                     nextGen := st.nextGen, files := s.files ++ st.files }) := by
  unfold publish
  dsimp only
  split
  · exact .inl rfl
  · rename_i st hmajor
    refine .inr ⟨st, hmajor, ?_⟩
    split
    exacts [.inl rfl, .inr rfl]

theorem flushQueue_cases (io : CompactorIo K V) (option : DbOption) (maxLevel : Nat)
    (isManual : Bool) (s : DbState K V) :
    let due := (isManual && !s.storage.immutables.isEmpty) ||
      decide (s.storage.immutables.length > option.immutableChunkMaxNum)
    let chunkNum := if isManual then s.storage.immutables.length else option.immutableChunkNum
    let taken : DbState K V := { s with storage := { s.storage with recoverWalIds := none } }
    (due = false ∧ flushQueue io option maxLevel isManual s = (s, .ok ())) ∨
      due = true ∧
        ((∃ e, flushQueue io option maxLevel isManual s = (taken, .error e)) ∨
          (chunkNum ≤ s.storage.immutables.length ∧ s.storage.immutables.take chunkNum = [] ∧
            flushQueue io option maxLevel isManual s =
              ({ taken with storage := { taken.storage with
                  immutables := s.storage.immutables.drop chunkNum } }, .ok ())) ∨
          ∃ scope file, chunkNum ≤ s.storage.immutables.length ∧
            minorCompaction option io.tables s.nextGen s.storage.recoverWalIds
              (s.storage.immutables.take chunkNum) = .ok (some (scope, file)) ∧
            flushQueue io option maxLevel isManual s =
              publish io option maxLevel chunkNum scope
                { taken with nextGen := s.nextGen + 1, files := s.files ++ [file] }) := by
  intro due chunkNum taken
  unfold flushQueue
  by_cases hdue : due = true
  · rw [if_pos hdue]
    refine .inr ⟨hdue, ?_⟩
    dsimp only
    split
    · exact .inl ⟨_, rfl⟩
    · rename_i excess hslice
      obtain ⟨hexcess, -, hle⟩ := slice_ok hslice
      simp only [List.drop_zero, Nat.sub_zero] at hexcess
      subst hexcess
      split
      · exact .inl ⟨_, rfl⟩
      · exact .inr (.inl ⟨hle, minorCompaction_none ‹_›, rfl⟩)
      · exact .inr (.inr ⟨_, _, hle, ‹_›, rfl⟩)
  · rw [if_neg hdue]
    exact .inl ⟨by simpa using hdue, rfl⟩

theorem checkThenCompaction_cases (io : CompactorIo K V) (option : DbOption) (maxLevel : Nat)
    (isManual : Bool) (s : DbState K V) :
    (checkThenCompaction io option maxLevel isManual s).1 = (freeze io.wal option isManual s).1 ∨
      (checkThenCompaction io option maxLevel isManual s).1 =
        (flushQueue io option maxLevel isManual (freeze io.wal option isManual s).1).1 := by
  unfold checkThenCompaction
  split
  · rename_i hfreeze; exact .inl (by rw [hfreeze])
  · rename_i hfreeze; exact .inl (by rw [hfreeze])
  · rename_i s₁ hfreeze
    rw [hfreeze]
    split
    · rename_i hflush; exact .inr (by rw [hflush])
    · rename_i hflush; exact .inr (by rw [hflush])

theorem run_preserves {option : DbOption} {maxLevel : Nat} {checkIfExceed : Option V → Bool}
    (P : DbState K V → Prop) (steps : List (Step K V))
    (append : ∀ (s : DbState K V) (m : Mutable K V), m.wal = s.storage.mutable.wal →
      P s → P { s with storage := { s.storage with mutable := m } })
    (compact : ∀ io isManual, Step.compact io isManual ∈ steps → ∀ s s' : DbState K V,
      checkThenCompaction io option maxLevel isManual s = (s', .ok ()) → P s → P s')
    {s s' : DbState K V} (ran : run option maxLevel checkIfExceed s steps = some s') (hs : P s) :
    P s' := by
  induction steps generalizing s with
  | nil => cases ran; exact hs
  | cons step rest ih =>
    have compact' := fun io isManual mem => compact io isManual (List.mem_cons_of_mem step mem)
    cases step with
    | append io a =>
      simp only [run] at ran
      split at ran
      · rename_i m b happend
        exact ih compact' ran (append _ _ (Mutable.append_ok happend).2 hs)
      · cases ran
    | compact io isManual =>
      simp only [run] at ran
      split at ran
      · rename_i s₁ hcall
        exact ih compact' ran (compact io isManual (List.mem_cons_self _ _) _ _ hcall hs)
      · cases ran

theorem runPastFailures_preserves {option : DbOption} {maxLevel : Nat}
    {checkIfExceed : Option V → Bool} (P : DbState K V → Prop) (steps : List (Step K V))
    (append : ∀ (s : DbState K V) (m : Mutable K V), m.wal = s.storage.mutable.wal →
      P s → P { s with storage := { s.storage with mutable := m } })
    (compact : ∀ io isManual, Step.compact io isManual ∈ steps → ∀ s : DbState K V,
      P s → P (checkThenCompaction io option maxLevel isManual s).1)
    (s : DbState K V) (hs : P s) : P (runPastFailures option maxLevel checkIfExceed s steps) := by
  induction steps generalizing s with
  | nil => exact hs
  | cons step rest ih =>
    have compact' := fun io isManual mem => compact io isManual (List.mem_cons_of_mem step mem)
    cases step with
    | append io a =>
      simp only [runPastFailures]
      split
      · rename_i m b happend
        exact ih compact' _ (append _ _ (Mutable.append_ok happend).2 hs)
      · exact ih compact' _ hs
    | compact io isManual =>
      exact ih compact' _ (compact io isManual (List.mem_cons_self _ _) _ hs)

/-! ## Runs on concrete inputs -/

def compactorIo (flushFails : Bool) (writeFails : Option CompactionError) :
    CompactorIo Nat Nat :=
  ⟨⟨fun _ _ => false, fun _ => flushFails⟩, ⟨fun _ _ => writeFails⟩,
    tableIo (fun _ => []) (.ofLevels []), none, false⟩

def appendKey (key : Nat) : Step Nat Nat :=
  .append ⟨fun _ _ => false, fun _ => false⟩ ⟨some .full, key, EPOCH, some key⟩

def twoKeysRun : List (Step Nat Nat) :=
  [appendKey 0, .compact (compactorIo false none) true, appendKey 1,
    .compact (compactorIo false none) false]

theorem run_holds_each_entry_once_of_two_keys :
    ∃ s, run (testOption 1 1) 7 (fun _ => false) (DbState.new (testOption 1 1)) twoKeysRun = some s ∧
      (holdings s).Nodup ∧ (∀ e, e ∈ holdings s ↔ e ∈ appended twoKeysRun) ∧
      ∀ (io : CompactorIo Nat Nat) (s₁ s₂ : DbState Nat Nat),
        checkThenCompaction io (testOption 1 1) 7 true s₁ = (s₂, .ok ()) →
          s₂.storage.immutables = [] := by
  obtain ⟨s, ran⟩ : ∃ s, run (testOption 1 1) 7 (fun _ => false) (DbState.new (testOption 1 1))
      twoKeysRun = some s := ⟨_, rfl⟩
  exact ⟨s, ran, run_holds_each_entry_once (by decide) ran⟩

def failedFlushRun : List (Step Nat Nat) :=
  [appendKey 0, .compact (compactorIo false (some .io)) true, appendKey 1,
    .compact (compactorIo false none) true]

def sameKeyRun : List (Step Nat Nat) :=
  [appendKey 0, .compact (compactorIo false none) true, appendKey 0,
    .compact (compactorIo false none) false]

/-- Appending one timestamped key twice around a flush leaves its entry both in the
published level-0 table and in the queue. -/
theorem run_holds_entry_twice :
    ∃ s, run (testOption 1 1) 7 (fun _ => false) (DbState.new (testOption 1 1)) sameKeyRun = some s ∧
      (⟨0, EPOCH⟩, some 0) ∈ appended sameKeyRun ∧
      queuedRows s.storage.immutables = [(⟨0, EPOCH⟩, some 0)] ∧
      flushedRows s.files s.versions.applied = [(⟨0, EPOCH⟩, some 0)] ∧
      (holdings s).count (⟨0, EPOCH⟩, some 0) = 2 ∧ ¬ (holdings s).Nodup :=
  ⟨_, rfl, by decide, rfl, rfl, by decide, by decide⟩

def oneEntryState : DbState Nat Nat :=
  ⟨⟨⟨SkipMap.empty.insert ⟨1, EPOCH⟩ (some 1), some 5⟩, [], some [3]⟩,
    ⟨.ofLevels [], EPOCH, []⟩, 6, []⟩

/-- When the log flush of the frozen table fails, the call fails after the mutable table
was swapped out: the entry is in neither the mutable table nor the queue. When the
level-0 write fails, the call fails after the recovered log ids were taken: they are
gone from the storage. -/
theorem checkThenCompaction_failure_loses_state :
    oneEntryState.storage.mutable.data.entries = [(⟨1, EPOCH⟩, some 1)] ∧
      (∃ s, checkThenCompaction (compactorIo true none) (testOption 1 1) 7 false oneEntryState =
          (s, .error (.error .logger)) ∧
        s.storage.mutable.data.entries = [] ∧ s.storage.immutables = [] ∧ s.versions.applied = []) ∧
      ∃ s, checkThenCompaction (compactorIo false (some .io)) (testOption 1 1) 7 true oneEntryState =
          (s, .error (.error .io)) ∧
        s.storage.recoverWalIds = none ∧ s.versions.applied = [] :=
  ⟨rfl, ⟨_, rfl, rfl, rfl, rfl⟩, _, rfl, rfl, rfl⟩

end Tonbo.Compaction.Compactor
