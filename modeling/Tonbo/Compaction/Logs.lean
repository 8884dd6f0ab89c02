/- The write-ahead logs, and the level-0 tables that record them as subsumed.
   source: src/src/compaction/mod.rs (`Compactor::check_then_compaction`,
           `Compactor::minor_compaction`), src/src/inmem/mutable.rs (`Mutable::new`,
           `Mutable::into_immutable`)
   digest: a fresh mutable table logs under a fresh id; freezing moves its log id to the
           queue with the table; a flush records the recovered ids and those of the tables
           it writes in the level-0 scope, and splices exactly those tables off the queue.
           So the log ids a store knows are pairwise distinct, and no log a published scope
           records as subsumed, which may then be deleted, is the log of a live table. -/

import Tonbo.Compaction.Compactor

set_option autoImplicit false
set_option relaxedAutoImplicit false

namespace Tonbo.Compaction.Logs

open Tonbo.Key Tonbo.Levels Tonbo.Inmem.ImmutableTable Tonbo.Inmem.MutableTable
  Tonbo.Compaction.Minor Tonbo.Compaction.Select Tonbo.Compaction.Major
  Tonbo.Compaction.Compactor

variable {K V : Type} [LinearOrder K]

def subsumedWals : List (VersionEdit K) → List FileId
  | [] => []
  | .add 0 scope :: rest => scope.walIds.getD [] ++ subsumedWals rest
  | _ :: rest => subsumedWals rest

omit [LinearOrder K] in
@[simp] theorem subsumedWals_nil : subsumedWals ([] : List (VersionEdit K)) = [] := rfl

omit [LinearOrder K] in
@[simp] theorem subsumedWals_add_zero (scope : Scope K) (rest : List (VersionEdit K)) :
    subsumedWals (.add 0 scope :: rest) = scope.walIds.getD [] ++ subsumedWals rest := rfl

omit [LinearOrder K] in
@[simp] theorem subsumedWals_latestTimeStamp (ts : Timestamp) (rest : List (VersionEdit K)) :
    subsumedWals (.latestTimeStamp ts :: rest) = subsumedWals rest := rfl

omit [LinearOrder K] in
@[simp] theorem subsumedWals_append (a b : List (VersionEdit K)) :
    subsumedWals (a ++ b) = subsumedWals a ++ subsumedWals b := by
  induction a with
  | nil => rfl
  | cons e rest ih =>
    cases e with
    | add l scope => cases l <;> simp [subsumedWals, ih]
    | remove l g => simp [subsumedWals, ih]
    | latestTimeStamp ts => simp [ih]

omit [LinearOrder K] in
private theorem subsumedWals_eq_nil {edits : List (VersionEdit K)}
    (h : ∀ e ∈ edits, ∀ scope, e ≠ .add 0 scope) : subsumedWals edits = [] := by
  induction edits with
  | nil => rfl
  | cons e rest ih =>
    have hr := ih fun x hx => h x (List.mem_cons_of_mem _ hx)
    cases e with
    | add l scope =>
      cases l with
      | zero => exact absurd rfl (h _ (List.mem_cons_self _ _) scope)
      | succ l => simpa [subsumedWals] using hr
    | remove l g => simpa [subsumedWals] using hr
    | latestTimeStamp ts => simpa [subsumedWals] using hr

def liveWals (s : DbState K V) : List FileId :=
  s.storage.mutable.wal.toList ++ s.storage.immutables.filterMap (·.1)

def logIds (s : DbState K V) : List FileId :=
  liveWals s ++ (s.storage.recoverWalIds.getD [] ++ subsumedWals s.versions.applied)

/-- Every log id a state knows of is known once, and is below the next free id. -/
structure LogsSound (s : DbState K V) : Prop where
  nodup : (logIds s).Nodup
  fresh : ∀ w ∈ logIds s, w < s.nextGen

private theorem LogsSound.subsumed_not_live {s : DbState K V} (h : LogsSound s) :
    ∀ w ∈ subsumedWals s.versions.applied, w ∉ liveWals s := fun _ hsub hlive =>
  List.disjoint_of_nodup_append h.nodup hlive (List.mem_append_right _ hsub)

private theorem LogsSound.of_subperm {s s' : DbState K V} (h : LogsSound s) (sub : List.Subperm (logIds s') (logIds s))
    (hgen : s.nextGen ≤ s'.nextGen) : LogsSound s' where
  nodup := let ⟨_, perm, sublist⟩ := sub; perm.nodup_iff.mp (h.nodup.sublist sublist)
  fresh w hw := (h.fresh w (sub.subset hw)).trans_le hgen

private theorem LogsSound.of_subperm_cons {s s' : DbState K V} (h : LogsSound s)
    (sub : List.Subperm (logIds s') (s.nextGen :: logIds s)) (hgen : s.nextGen < s'.nextGen) :
    LogsSound s' where
  nodup :=
    let ⟨_, perm, sublist⟩ := sub
    perm.nodup_iff.mp ((List.nodup_cons.mpr ⟨fun hm => lt_irrefl _ (h.fresh _ hm), h.nodup⟩).sublist
      sublist)
  fresh w hw := by
    rcases List.mem_cons.mp (sub.subset hw) with rfl | hw
    exacts [hgen, (h.fresh w hw).trans hgen]

/-! ## Every outcome of a call -/

section Call

variable {io : CompactorIo K V} {option : DbOption} {maxLevel : Nat} {isManual : Bool}

private theorem queued_subperm (queue rest : List FileId) {mw moved : List FileId} (h : List.Sublist moved mw) :
    List.Subperm (queue ++ (moved ++ rest)) (mw ++ (queue ++ rest)) :=
  (List.perm_append_comm_assoc queue moved rest).subperm.trans
    (h.append (List.Sublist.refl _)).subperm

private theorem logsSound_freeze {wal : WalIo K V} {s : DbState K V} (h : LogsSound s) :
    LogsSound (freeze wal option isManual s).1 := by
  rcases freeze_cases wal option isManual s with ⟨-, hfreeze⟩ | ⟨-, queued, hqueued, hfreeze⟩
  · rw [hfreeze]; exact h
  · have moved : List.Sublist (queued.filterMap (·.1)) s.storage.mutable.wal.toList := by
      rcases hqueued with ⟨rfl, -⟩ | ⟨rfl, -⟩
      · cases s.storage.mutable.wal <;> simp
      · exact List.nil_sublist _
    have sub := queued_subperm (s.storage.immutables.filterMap (·.1))
      (s.storage.recoverWalIds.getD [] ++ subsumedWals s.versions.applied) moved
    rw [hfreeze]
    cases hwal : option.useWal
    · refine h.of_subperm ?_ (by simp [hwal])
      simpa [logIds, liveWals, Mutable.new, hwal, List.filterMap_append] using sub
    · refine h.of_subperm_cons ?_ (by simp [hwal])
      simpa [logIds, liveWals, Mutable.new, hwal, List.filterMap_append] using (List.subperm_cons _).mpr sub

private theorem flushed_perm (mw flushed kept rec subsumed : List FileId) :
    List.Perm (mw ++ kept ++ (subsumed ++ (rec ++ flushed)))
      (mw ++ (flushed ++ kept) ++ (rec ++ subsumed)) :=
  List.perm_iff_count.mpr fun a => by simp only [List.count_append]; omega

private theorem logsSound_flushed {chunkNum : Nat} {scope : Scope K} {file : TableFile K V}
    {s : DbState K V} (h : LogsSound s)
    (minor : minorCompaction option io.tables s.nextGen s.storage.recoverWalIds
      (s.storage.immutables.take chunkNum) = .ok (some (scope, file))) :
    LogsSound (publish io option maxLevel chunkNum scope
      { { s with storage := { s.storage with recoverWalIds := none } } with
          nextGen := s.nextGen + 1, files := s.files ++ [file] }).1 := by
  have flushing : LogsSound { { s with storage := { s.storage with recoverWalIds := none } } with
      nextGen := s.nextGen + 1, files := s.files ++ [file] } :=
    h.of_subperm ((List.Sublist.refl _).append (List.sublist_append_right _ _)).subperm
      (Nat.le_succ _)
  rcases publish_cases io option maxLevel chunkNum scope
      { { s with storage := { s.storage with recoverWalIds := none } } with
          nextGen := s.nextGen + 1, files := s.files ++ [file] } with
    hpub | ⟨st, hmajor, hpub | hpub⟩ <;> rw [hpub]
  · exact flushing
  · exact flushing.of_subperm (List.Subperm.refl _) (publishMajor_grows hmajor).1
  · obtain ⟨hgen, -, edits, hedits, noAdd⟩ := publishMajor_grows hmajor
    have major : subsumedWals st.edits = [] := by
      rw [hedits, List.nil_append]; exact subsumedWals_eq_nil noAdd
    have queue : s.storage.immutables.filterMap (·.1) =
        (s.storage.immutables.take chunkNum).filterMap (·.1) ++
          (s.storage.immutables.drop chunkNum).filterMap (·.1) := by
      rw [← List.filterMap_append, List.take_append_drop]
    refine h.of_subperm (List.Perm.subperm ?_) ((Nat.le_succ _).trans hgen)
    simp only [logIds, liveWals, VersionSet.applyEdits, VersionSet.increaseTs, subsumedWals_append,
      subsumedWals_add_zero, subsumedWals_latestTimeStamp, subsumedWals_nil, major,
      (minorCompaction_ok minor).1, queue, Option.getD_some, Option.getD_none, List.nil_append,
      List.append_nil, List.append_assoc]
    simpa only [List.append_assoc] using flushed_perm _ _ _ _ _

private theorem logsSound_flushQueue {s : DbState K V} (h : LogsSound s) :
    LogsSound (flushQueue io option maxLevel isManual s).1 := by
  have taken : LogsSound { s with storage := { s.storage with recoverWalIds := none } } :=
    h.of_subperm ((List.Sublist.refl _).append (List.sublist_append_right _ _)).subperm le_rfl
  rcases flushQueue_cases io option maxLevel isManual s with
    ⟨-, hflush⟩ | ⟨-, ⟨e, hflush⟩ | ⟨-, -, hflush⟩ | ⟨scope, file, -, hminor, hflush⟩⟩ <;>
    rw [hflush]
  · exact h
  · exact taken
  · exact taken.of_subperm (((List.Sublist.refl _).append
      ((List.drop_sublist _ _).filterMap _)).append (List.Sublist.refl _)).subperm le_rfl
  · exact logsSound_flushed h hminor

private theorem checkThenCompaction_logsSound {s : DbState K V} (h : LogsSound s) :
    LogsSound (checkThenCompaction io option maxLevel isManual s).1 := by
  rcases checkThenCompaction_cases io option maxLevel isManual s with hcall | hcall <;> rw [hcall]
  · exact logsSound_freeze h
  · exact logsSound_flushQueue (logsSound_freeze h)

end Call

/-- In every run of the store, in which a failed call aborts and the store goes on from
the state it left, from a state whose known log ids are pairwise distinct and below the
next free id (a new store, or one opened with recovered logs pending): the log ids the
store knows (the mutable table's, the queued tables', the recovered ones and those
published level-0 tables record as subsumed) stay pairwise distinct and below the next
free id; so no log that a published level-0 table records as subsumed is the log of the
mutable table or of a queued frozen table. -/
theorem runPastFailures_logsSound {option : DbOption} {maxLevel : Nat}
    {checkIfExceed : Option V → Bool} (steps : List (Step K V)) {s : DbState K V}
    (h : LogsSound s) :
    let s' := runPastFailures option maxLevel checkIfExceed s steps
    LogsSound s' ∧ ∀ w ∈ subsumedWals s'.versions.applied, w ∉ liveWals s' := by
  have sound : LogsSound (runPastFailures option maxLevel checkIfExceed s steps) :=
    runPastFailures_preserves LogsSound steps
      (fun s m hwal h => by
        have same : logIds { s with storage := { s.storage with mutable := m } } = logIds s := by
          simp only [logIds, liveWals, hwal]
        exact ⟨same ▸ h.nodup, same ▸ h.fresh⟩)
      (fun _ _ _ _ h => checkThenCompaction_logsSound h) _ h
  exact ⟨sound, sound.subsumed_not_live⟩

/-- From the store holding the recovered log 3, with a flush that fails and then one that
succeeds. -/
theorem runPastFailures_logsSound_of_recovered :
    LogsSound oneEntryState ∧
      let s' := runPastFailures (testOption 1 1) 7 (fun _ => false) oneEntryState failedFlushRun
      LogsSound s' ∧ ∀ w ∈ subsumedWals s'.versions.applied, w ∉ liveWals s' := by
  have sound : LogsSound oneEntryState := ⟨by decide, by decide⟩
  exact ⟨sound, runPastFailures_logsSound failedFlushRun sound⟩

end Tonbo.Compaction.Logs
