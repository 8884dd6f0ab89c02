/- When the queue of frozen tables is flushed: the bound `immutable_chunk_max_num` keeps
   on it, and what a manual call persists.
   source: src/src/compaction/mod.rs (`Compactor::check_then_compaction`)
   digest: a call that is not manual flushes the oldest `immutable_chunk_num` tables once
           the queue is longer than `immutable_chunk_max_num`, and a manual one the whole
           queue. So no successful call leaves the queue over the bound, and a manual one
           leaves every entry appended before it in a published level-0 table. With
           `immutable_chunk_num` zero or above `immutable_chunk_max_num + 1`, no call that is
           not manual ever writes a table: the store keeps every entry in memory. -/

import Tonbo.Compaction.Compactor

set_option autoImplicit false
set_option relaxedAutoImplicit false

namespace Tonbo.Compaction.Flush

open Tonbo.Key Tonbo.Skiplist Tonbo.Levels Tonbo.Inmem.ImmutableTable Tonbo.Inmem.MutableTable
  Tonbo.Compaction.Minor Tonbo.Compaction.Select Tonbo.Compaction.Major
  Tonbo.Compaction.Compactor

variable {K V : Type} [LinearOrder K]

section Call

variable {io : CompactorIo K V} {option : DbOption} {maxLevel : Nat} {isManual : Bool}

private theorem freeze_queue {wal : WalIo K V} {b : Bool} {s s₁ : DbState K V}
    (h : freeze wal option isManual s = (s₁, .ok b)) :
    s₁.storage.immutables.length ≤ s.storage.immutables.length + 1 ∧
      s₁.storage.mutable.data.entries = [] ∧ (b = false → s₁ = s) := by
  rcases freeze_cases wal option isManual s with ⟨empty, hfreeze⟩ | ⟨-, queued, hqueued, hfreeze⟩
  · rw [hfreeze] at h
    cases h
    exact ⟨Nat.le_succ _, List.isEmpty_iff.mp empty, fun _ => rfl⟩
  · have hs₁ := congrArg Prod.fst h
    have hb := congrArg Prod.snd h
    rw [hfreeze] at hs₁
    subst hs₁
    rcases hqueued with ⟨rfl, hok⟩ | ⟨-, herr⟩
    · rw [hok] at hb
      cases hb
      exact ⟨by simp, rfl, fun h => by cases h⟩
    · rw [herr] at hb; cases hb

private theorem flushQueue_queue {s s' : DbState K V}
    (h : flushQueue io option maxLevel isManual s = (s', .ok ())) :
    s'.storage.mutable = s.storage.mutable ∧
      ((((isManual && !s.storage.immutables.isEmpty) ||
          decide (s.storage.immutables.length > option.immutableChunkMaxNum)) = false ∧
        s'.storage.immutables = s.storage.immutables) ∨
      (((isManual && !s.storage.immutables.isEmpty) ||
          decide (s.storage.immutables.length > option.immutableChunkMaxNum)) = true ∧
        (if isManual then s.storage.immutables.length else option.immutableChunkNum) ≤
          s.storage.immutables.length ∧
        s'.storage.immutables = s.storage.immutables.drop
          (if isManual then s.storage.immutables.length else option.immutableChunkNum))) := by
  rcases flushQueue_cases io option maxLevel isManual s with
    ⟨due, hflush⟩ | ⟨due, ⟨e, hflush⟩ | ⟨hle, -, hflush⟩ | ⟨scope, file, hle, -, hflush⟩⟩ <;>
    rw [hflush] at h
  · cases h; exact ⟨rfl, .inl ⟨due, rfl⟩⟩
  · cases h
  · cases h; exact ⟨rfl, .inr ⟨due, hle, rfl⟩⟩
  · obtain ⟨-, -, -, hstorage, -⟩ := publish_ok h
    rw [hstorage]
    exact ⟨rfl, .inr ⟨due, hle, rfl⟩⟩

private theorem checkThenCompaction_queue_within (chunk : 0 < option.immutableChunkNum)
    {s s' : DbState K V} (h : checkThenCompaction io option maxLevel isManual s = (s', .ok ()))
    (bound : s.storage.immutables.length ≤ option.immutableChunkMaxNum) :
    s'.storage.immutables.length ≤ option.immutableChunkMaxNum := by
  unfold checkThenCompaction at h
  split at h
  · cases h
  · rename_i s₁ hfreeze
    cases h
    rw [(freeze_queue hfreeze).2.2 rfl]
    exact bound
  · rename_i s₁ hfreeze
    have queued := (freeze_queue hfreeze).1
    split at h
    · cases h
    · rename_i s₂ hflush
      have hs' : s' = s₂ := (congrArg Prod.fst h).symm
      subst hs'
      rcases (flushQueue_queue hflush).2 with ⟨due, hq⟩ | ⟨-, -, hq⟩ <;> rw [hq]
      · simp only [Bool.or_eq_false_iff, decide_eq_false_iff_not] at due
        omega
      · rw [List.length_drop]
        split <;> omega

private theorem checkThenCompaction_manual_empties {s s' : DbState K V}
    (h : checkThenCompaction io option maxLevel true s = (s', .ok ())) :
    s'.storage.mutable.data.entries = [] ∧ s'.storage.immutables = [] := by
  refine ⟨?_, (checkThenCompaction_ok h).1 rfl⟩
  unfold checkThenCompaction at h
  split at h
  · cases h
  · rename_i s₁ hfreeze
    exact absurd (freeze_ok hfreeze).2.2 (by simp)
  · rename_i s₁ hfreeze
    split at h
    · cases h
    · rename_i s₂ hflush
      rw [show s' = s₂ from (congrArg Prod.fst h).symm, (flushQueue_queue hflush).1]
      exact (freeze_queue hfreeze).2.1

end Call

/-- In every successful run, with `immutable_chunk_num` at least one, from a state with at
most `immutable_chunk_max_num` frozen tables queued, the queue stays within that bound. -/
theorem run_queue_within_max {option : DbOption} {maxLevel : Nat} {checkIfExceed : Option V → Bool}
    {steps : List (Step K V)} {s s' : DbState K V} (chunk : 0 < option.immutableChunkNum)
    (bound : s.storage.immutables.length ≤ option.immutableChunkMaxNum)
    (ran : run option maxLevel checkIfExceed s steps = some s') :
    s'.storage.immutables.length ≤ option.immutableChunkMaxNum :=
  run_preserves (fun s => s.storage.immutables.length ≤ option.immutableChunkMaxNum) steps
    (fun _ _ _ h => h) (fun _ _ _ _ _ hcall h => checkThenCompaction_queue_within chunk hcall h)
    ran bound

theorem run_queue_within_max_of_two_keys :
    0 < (testOption 1 1).immutableChunkNum ∧
      (DbState.new (testOption 1 1) : DbState Nat Nat).storage.immutables.length ≤
        (testOption 1 1).immutableChunkMaxNum ∧
      ∃ s, run (testOption 1 1) 7 (fun _ => false) (DbState.new (testOption 1 1)) twoKeysRun =
        some s ∧ s.storage.immutables.length ≤ (testOption 1 1).immutableChunkMaxNum := by
  obtain ⟨s, ran⟩ : ∃ s, run (testOption 1 1) 7 (fun _ => false) (DbState.new (testOption 1 1))
      twoKeysRun = some s := ⟨_, rfl⟩
  exact ⟨by decide, by decide, s, ran, run_queue_within_max (by decide) (by decide) ran⟩

omit [LinearOrder K] in
@[simp] theorem appended_append (a b : List (Step K V)) :
    appended (a ++ b) = appended a ++ appended b := by
  induction a with
  | nil => rfl
  | cons step rest ih => cases step <;> simp [appended, ih]

private theorem run_append {option : DbOption} {maxLevel : Nat} {checkIfExceed : Option V → Bool}
    (s : DbState K V) (a b : List (Step K V)) :
    run option maxLevel checkIfExceed s (a ++ b) =
      (run option maxLevel checkIfExceed s a).bind fun s' => run option maxLevel checkIfExceed s' b := by
  induction a generalizing s with
  | nil => rfl
  | cons step rest ih =>
    cases step with
    | append io a =>
      simp only [List.cons_append, run]
      split <;> simp [ih]
    | compact io isManual =>
      simp only [List.cons_append, run]
      split <;> simp [ih]

/-- In a run from a new store whose appends write pairwise distinct timestamped keys, a
manual call that ends it successfully leaves the mutable table and the queue empty, and
the published level-0 tables holding exactly the appended entries, each once. -/
theorem run_manual_call_persists {option : DbOption} {maxLevel : Nat}
    {checkIfExceed : Option V → Bool} {steps : List (Step K V)} {io : CompactorIo K V}
    {s : DbState K V} (distinct : ((appended steps).map (·.1)).Nodup)
    (ran : run option maxLevel checkIfExceed (DbState.new option) (steps ++ [.compact io true]) =
      some s) :
    s.storage.mutable.data.entries = [] ∧ s.storage.immutables = [] ∧
      (flushedRows s.files s.versions.applied).Perm (appended steps) := by
  have held := run_holdings (steps ++ [.compact io true]) _ [] ran
    (by simp [holdings, DbState.new, queuedRows, flushedRows]) (fun _ hf => by cases hf)
    (by simpa [appended] using distinct)
  rw [run_append] at ran
  obtain ⟨s₁, -, hlast⟩ := Option.bind_eq_some.mp ran
  simp only [run] at hlast
  split at hlast
  · rename_i s₂ hcall
    cases hlast
    obtain ⟨mutable, queue⟩ := checkThenCompaction_manual_empties hcall
    refine ⟨mutable, queue, ?_⟩
    simpa [holdings, mutable, queue, queuedRows, appended] using held
  · cases hlast

theorem run_manual_call_persists_of_two_keys :
    ((appended [appendKey 0, appendKey 1]).map (·.1)).Nodup ∧
      ∃ s, run (testOption 1 1) 7 (fun _ => false) (DbState.new (testOption 1 1))
          ([appendKey 0, appendKey 1] ++ [Step.compact (compactorIo false none) true]) = some s ∧
        s.storage.mutable.data.entries = [] ∧ s.storage.immutables = [] ∧
        (flushedRows s.files s.versions.applied).Perm (appended [appendKey 0, appendKey 1]) := by
  obtain ⟨s, ran⟩ : ∃ s, run (testOption 1 1) 7 (fun _ => false) (DbState.new (testOption 1 1))
      ([appendKey 0, appendKey 1] ++ [Step.compact (compactorIo false none) true]) = some s :=
    ⟨_, rfl⟩
  exact ⟨by decide, s, ran, run_manual_call_persists (by decide) ran⟩

/-! ## A chunk size no flush can take -/

section Unflushed

variable {io : CompactorIo K V} {option : DbOption} {maxLevel : Nat}

private theorem flushQueue_unflushed {s s' : DbState K V}
    (unusable : option.immutableChunkNum = 0 ∨ s.storage.immutables.length < option.immutableChunkNum)
    (h : flushQueue io option maxLevel false s = (s', .ok ())) :
    s'.files = s.files ∧ s'.versions = s.versions := by
  rcases flushQueue_cases io option maxLevel false s with
    ⟨-, hflush⟩ | ⟨-, ⟨e, hflush⟩ | ⟨-, -, hflush⟩ | ⟨scope, file, hle, hminor, hflush⟩⟩ <;>
    rw [hflush] at h
  · cases h; exact ⟨rfl, rfl⟩
  · cases h
  · cases h; exact ⟨rfl, rfl⟩
  · simp only [Bool.false_eq_true, if_false] at hle hminor
    rcases unusable with zero | over
    · rw [zero, List.take_zero] at hminor
      cases hminor
    · omega

private theorem checkThenCompaction_unflushed {s s' : DbState K V}
    (unusable : option.immutableChunkNum = 0 ∨
      s.storage.immutables.length + 1 < option.immutableChunkNum)
    (h : checkThenCompaction io option maxLevel false s = (s', .ok ())) :
    s'.files = s.files ∧ s'.versions = s.versions := by
  unfold checkThenCompaction at h
  split at h
  · cases h
  · rename_i s₁ hfreeze
    cases h
    rw [(freeze_queue hfreeze).2.2 rfl]
    exact ⟨rfl, rfl⟩
  · rename_i s₁ hfreeze
    have frozen : s₁.files = s.files ∧ s₁.versions = s.versions := by
      rcases freeze_cases io.wal option false s with ⟨-, h'⟩ | ⟨-, _, -, h'⟩ <;> rw [hfreeze] at h'
      · cases h'
      · cases h'; exact ⟨rfl, rfl⟩
    split at h
    · cases h
    · rename_i s₂ hflush
      rw [show s' = s₂ from (congrArg Prod.fst h).symm]
      have queued := (freeze_queue hfreeze).1
      obtain ⟨files, versions⟩ := flushQueue_unflushed (unusable.imp_right fun over => by omega) hflush
      exact ⟨files.trans frozen.1, versions.trans frozen.2⟩

end Unflushed

/-- With `immutable_chunk_num` zero, or above `immutable_chunk_max_num + 1`, in every
successful run from a new store whose appends write pairwise distinct timestamped keys
and whose calls are none of them manual: no table is written and no edit published, and
the mutable table and the queue hold every appended entry. With the chunk size zero, a
flush that falls due slices nothing off the queue; above the bound, it slices past the
queue's end and panics. -/
theorem run_writes_nothing_of_chunk_num {option : DbOption} {maxLevel : Nat}
    {checkIfExceed : Option V → Bool} {steps : List (Step K V)} {s : DbState K V}
    (unusable : option.immutableChunkNum = 0 ∨
      option.immutableChunkMaxNum + 1 < option.immutableChunkNum)
    (automatic : ∀ io isManual, Step.compact io isManual ∈ steps → isManual = false)
    (distinct : ((appended steps).map (·.1)).Nodup)
    (ran : run option maxLevel checkIfExceed (DbState.new option) steps = some s) :
    s.files = [] ∧ s.versions.applied = [] ∧
      (s.storage.mutable.data.entries ++ queuedRows s.storage.immutables).Perm (appended steps) := by
  obtain ⟨files, applied, -⟩ := run_preserves (fun s : DbState K V => s.files = [] ∧
      s.versions.applied = [] ∧
      (0 < option.immutableChunkNum → s.storage.immutables.length ≤ option.immutableChunkMaxNum))
    steps (fun _ _ _ h => h)
    (fun io isManual mem s s' hcall ⟨files, applied, bound⟩ => by
      obtain rfl := automatic io isManual mem
      have within : option.immutableChunkNum = 0 ∨
          s.storage.immutables.length + 1 < option.immutableChunkNum := by
        refine unusable.imp_right fun over => ?_
        have := bound (by omega)
        omega
      obtain ⟨hfiles, hversions⟩ := checkThenCompaction_unflushed within hcall
      exact ⟨hfiles.trans files, hversions ▸ applied,
        fun chunk => checkThenCompaction_queue_within chunk hcall (bound chunk)⟩)
    ran ⟨rfl, rfl, fun _ => Nat.zero_le _⟩
  have held := run_holdings steps _ [] ran
    (by simp [holdings, DbState.new, queuedRows, flushedRows]) (fun _ hf => by cases hf)
    (by simpa using distinct)
  refine ⟨files, applied, ?_⟩
  simpa [holdings, files, flushedRows] using held

def automaticRun : List (Step Nat Nat) :=
  [appendKey 0, .compact (compactorIo false none) false, appendKey 1,
    .compact (compactorIo false none) false]

theorem run_writes_nothing_of_chunk_num_of_zero :
    let option : DbOption := { testOption 1 1 with immutableChunkNum := 0 }
    (option.immutableChunkNum = 0 ∨ option.immutableChunkMaxNum + 1 < option.immutableChunkNum) ∧
      (∀ io isManual, Step.compact io isManual ∈ automaticRun → isManual = false) ∧
      ((appended automaticRun).map (·.1)).Nodup ∧
      ∃ s, run option 7 (fun _ => false) (DbState.new option) automaticRun = some s ∧
        s.files = [] ∧ s.versions.applied = [] ∧
        (s.storage.mutable.data.entries ++ queuedRows s.storage.immutables).Perm
          (appended automaticRun) := by
  intro option
  have automatic : ∀ io isManual, Step.compact io isManual ∈ automaticRun → isManual = false := by
    intro io isManual mem
    simp [automaticRun, appendKey] at mem
    exact mem.2
  obtain ⟨s, ran⟩ : ∃ s, run option 7 (fun _ => false) (DbState.new option) automaticRun = some s :=
    ⟨_, rfl⟩
  exact ⟨.inl rfl, automatic, by decide, s, ran,
    run_writes_nothing_of_chunk_num (.inl rfl) automatic (by decide) ran⟩

/- With the chunk size zero, the second call finds two tables queued, over the bound of
one, and flushes none of them. -/
example :
    ∃ s, run { testOption 1 1 with immutableChunkNum := 0 } 7 (fun _ => false)
        (DbState.new { testOption 1 1 with immutableChunkNum := 0 }) automaticRun = some s ∧
      s.storage.immutables.length = 2 :=
  ⟨_, rfl, rfl⟩

end Tonbo.Compaction.Flush
