/- The version and the tables: every scope the version lists names a table the compactor
   wrote, at that level and under that gen, and bounds it.
   source: src/src/compaction/mod.rs (`Compactor::check_then_compaction`,
           `Compactor::minor_compaction`, `Compactor::major_compaction`,
           `Compactor::build_tables`, `Compactor::build_table`)
   digest: every table is written under an id of its own before the `Add` naming it is
           pushed; so on every outcome of a call, a failed one included, the version names
           only tables that were written. A level-0 scope contains every key of its table;
           a deeper one only spans the table's first and last keys, which bound the others
           when the merge yielded them in order, and not when it merged a level-0 table
           flushed out of order. -/

import Tonbo.Compaction.BuildTables
import Tonbo.Compaction.Compactor
import Tonbo.Ondisk.SsTable

set_option autoImplicit false
set_option relaxedAutoImplicit false

namespace Tonbo.Compaction.Manifest

open Tonbo.Key Tonbo.Skiplist Tonbo.Levels Tonbo.Inmem.ImmutableTable Tonbo.Inmem.MutableTable
  Tonbo.Compaction.Minor Tonbo.Compaction.Select Tonbo.Compaction.Major
  Tonbo.Compaction.BuildTables Tonbo.Compaction.Compactor Tonbo.Ondisk

variable {K V : Type} [LinearOrder K]

/-! ## Tables written under fresh ids, and the edits that name them -/

omit [LinearOrder K] in
private theorem nodup_gens_append {older newer : List (TableFile K V)} {gen : FileId}
    (hold : (older.map (·.gen)).Nodup) (hnew : (newer.map (·.gen)).Nodup)
    (below : ∀ f ∈ older, f.gen < gen) (above : ∀ f ∈ newer, gen ≤ f.gen) :
    ((older ++ newer).map (·.gen)).Nodup := by
  rw [List.map_append]
  refine hold.append hnew fun g hg hg' => ?_
  obtain ⟨f, hf, rfl⟩ := List.mem_map.mp hg
  obtain ⟨f', hf', heq⟩ := List.mem_map.mp hg'
  exact absurd (below f hf) (not_lt.mpr (heq ▸ above f' hf'))

/-- What the scope of an `Add` says of the table it names. At level 0, where a flush
writes the table, the scope contains the key of each of its rows; past level 0, where
`build_tables` writes it, the scope runs from the key of its first row to the key of its
last, which bounds the others only when the merge yielded them in order. -/
def Bounds (scope : Scope K) (f : TableFile K V) : Prop :=
  if f.level = 0 then ∀ r ∈ f.rows, scope.contains r.1.value
  else f.rows.head?.map (·.1.value) = some scope.min ∧
    f.rows.getLast?.map (·.1.value) = some scope.max

/-- The tables `files` were written under distinct ids from `gen` up to `gen'`, and every
`Add` of `edits` names one of them at its level, with a scope that bounds it. -/
structure Writes (gen gen' : FileId) (files : List (TableFile K V)) (edits : List (VersionEdit K)) :
    Prop where
  le : gen ≤ gen'
  nodup : (files.map (·.gen)).Nodup
  fresh : ∀ f ∈ files, gen ≤ f.gen ∧ f.gen < gen'
  named : ∀ l scope, VersionEdit.add l scope ∈ edits →
    ∃ f ∈ files, f.gen = scope.gen ∧ f.level = l ∧ Bounds scope f

namespace Writes

theorem skip {gen gen' : FileId} (h : gen ≤ gen') :
    Writes gen gen' ([] : List (TableFile K V)) ([] : List (VersionEdit K)) :=
  ⟨h, List.nodup_nil, by simp, by simp⟩

theorem append {a b c : FileId} {files files' : List (TableFile K V)}
    {edits edits' : List (VersionEdit K)} (h : Writes a b files edits)
    (h' : Writes b c files' edits') : Writes a c (files ++ files') (edits ++ edits') where
  le := h.le.trans h'.le
  nodup := nodup_gens_append h.nodup h'.nodup (fun f hf => (h.fresh f hf).2)
    (fun f hf => (h'.fresh f hf).1)
  fresh f hf := by
    rcases List.mem_append.mp hf with hf | hf
    · exact ⟨(h.fresh f hf).1, (h.fresh f hf).2.trans_le h'.le⟩
    · exact ⟨h.le.trans (h'.fresh f hf).1, (h'.fresh f hf).2⟩
  named l scope he := by
    rcases List.mem_append.mp he with he | he
    · obtain ⟨f, hf, named⟩ := h.named l scope he
      exact ⟨f, List.mem_append_left _ hf, named⟩
    · obtain ⟨f, hf, named⟩ := h'.named l scope he
      exact ⟨f, List.mem_append_right _ hf, named⟩

private theorem of_adds {gen gen' : FileId} {files : List (TableFile K V)}
    {edits edits' : List (VersionEdit K)} (h : Writes gen gen' files edits)
    (adds : ∀ l scope, VersionEdit.add l scope ∈ edits' → VersionEdit.add l scope ∈ edits) :
    Writes gen gen' files edits' :=
  ⟨h.le, h.nodup, h.fresh, fun l scope he => h.named l scope (adds l scope he)⟩

end Writes

/-! ## What `build_tables` and major compaction write -/

omit [LinearOrder K] in
private theorem buildTable_pendingBuilder_nil {tio : TableIo} {level : Nat} {fs : String}
    {built : Built K V} {r : Builder K V × Built K V} :
    buildTable tio level fs (pendingBuilder []) built ≠ .ok r := by
  cases hw : tio.writeFails level built.nextGen <;> simp [buildTable, pendingBuilder, hw]

private theorem buildTable_writes {tio : TableIo} {level : Nat} {fs : String} {cur : List (Row K V)}
    {builder : Builder K V} {built built' : Built K V} (deeper : level ≠ 0)
    (h : buildTable tio level fs (pendingBuilder cur) built = .ok (builder, built')) :
    builder = pendingBuilder [] ∧ ∃ files edits, built'.files = built.files ++ files ∧
      built'.edits = built.edits ++ edits ∧ Writes built.nextGen built'.nextGen files edits := by
  rcases cur with _ | ⟨p, ps⟩
  · exact absurd h buildTable_pendingBuilder_nil
  · rw [show p :: ps = chunkRows (p, ps) from rfl, buildTable_pendingBuilder] at h
    split at h
    · cases h
    · cases h
      unfold writeChunk
      refine ⟨rfl, _, _, rfl, rfl, ⟨Nat.le_succ _, by simp, by simp, fun l scope he => ?_⟩⟩
      simp only [List.mem_singleton, VersionEdit.add.injEq] at he
      obtain ⟨rfl, rfl⟩ := he
      refine ⟨_, List.mem_singleton_self _, rfl, rfl, ?_⟩
      simp [Bounds, deeper, chunkRows, List.getLast?_cons, List.getLastD_eq_getLast?]

private theorem buildTablesLoop_writes {io : MajorIo K V} {option : DbOption} {level : Nat}
    {fs : String} (deeper : level ≠ 0) (entries cur : List (Row K V)) (built : Built K V)
    {built' : Built K V}
    (h : buildTablesLoop io option level fs entries (pendingBuilder cur) built = .ok built') :
    ∃ files edits, built'.files = built.files ++ files ∧ built'.edits = built.edits ++ edits ∧
      Writes built.nextGen built'.nextGen files edits := by
  induction entries generalizing cur built with
  | nil =>
    unfold buildTablesLoop at h
    split at h
    · obtain ⟨⟨b, bt⟩, hb, rfl⟩ := map_eq_ok.mp h
      exact (buildTable_writes deeper hb).2
    · cases h
      exact ⟨[], [], by simp, by simp, .skip le_rfl⟩
  | cons e rest ih =>
    rw [buildTablesLoop] at h
    dsimp only at h
    rw [push_pendingBuilder, pendingBuilder_rows] at h
    split at h
    · split at h
      · cases h
      · rename_i b bt hb
        obtain ⟨rfl, files, edits, hfiles, hedits, w⟩ := buildTable_writes deeper hb
        obtain ⟨files', edits', hfiles', hedits', w'⟩ := ih [] bt h
        exact ⟨files ++ files', edits ++ edits', by rw [hfiles', hfiles, List.append_assoc],
          by rw [hedits', hedits, List.append_assoc], w.append w'⟩
    · exact ih _ _ h

private theorem buildTables_writes {io : MajorIo K V} {option : DbOption} {level : Nat}
    {streams : List (ScanStream K)} {fs : String} {gen : FileId} {built : Built K V}
    (deeper : level ≠ 0) (h : buildTables io option level streams fs gen = .ok built) :
    Writes gen built.nextGen built.files built.edits := by
  obtain ⟨rows, -, h⟩ := bind_eq_ok.mp h
  obtain ⟨files, edits, hfiles, hedits, w⟩ := buildTablesLoop_writes deeper rows [] _ h
  rw [hfiles, hedits]
  exact w

def RoundsWrite (st st' : MajorState K V) : Prop :=
  ∃ files edits, st'.files = st.files ++ files ∧ st'.edits = st.edits ++ edits ∧
    Writes st.nextGen st'.nextGen files edits

theorem RoundsWrite.trans {a b c : MajorState K V} (hab : RoundsWrite a b) (hbc : RoundsWrite b c) :
    RoundsWrite a c := by
  obtain ⟨files, edits, hfiles, hedits, w⟩ := hab
  obtain ⟨files', edits', hfiles', hedits', w'⟩ := hbc
  exact ⟨files ++ files', edits ++ edits', by rw [hfiles', hfiles, List.append_assoc],
    by rw [hedits', hedits, List.append_assoc], w.append w'⟩

section Major

variable {io : MajorIo K V} {option : DbOption} {version : Version K}

private theorem majorRound_writes {level : Nat} {st st' : MajorState K V}
    {streams : List (ScanStream K)} (h : majorRound io option version level st = .ok (streams, st')) :
    RoundsWrite st st' := by
  obtain ⟨meet, -, -, next, streamsL, streamsLl, built, -, -, -, -, hbuilt, -, -, -, hedits, -, hfiles,
    hgen⟩ := majorRound_ok h
  refine ⟨built.files, built.edits ++ meet.map (fun scope => .remove level scope.gen)
    ++ next.scopes.map (fun scope => .remove (level + 1) scope.gen), hfiles,
    by rw [hedits]; simp only [List.append_assoc], ?_⟩
  rw [hgen]
  exact (buildTables_writes (Nat.succ_ne_zero level) hbuilt).of_adds fun l scope he => by simpa using he

private theorem majorLoop_writes (fuel level : Nat) (st : MajorState K V)
    {st' : MajorState K V} (h : majorLoop io option version fuel level st = .ok st') :
    RoundsWrite st st' := by
  induction fuel generalizing level st with
  | zero => cases h; exact ⟨[], [], by simp, by simp, .skip le_rfl⟩
  | succ fuel ih =>
    simp only [majorLoop] at h
    split at h
    · cases hround : majorRound io option version level st with
      | error e => rw [hround] at h; cases h
      | ok r => rw [hround] at h; exact (majorRound_writes hround).trans (ih _ _ h)
    · cases h; exact ⟨[], [], by simp, by simp, .skip le_rfl⟩

end Major

private theorem publishMajor_writes {io : MajorIo K V} {option : DbOption} {maxLevel : Nat}
    {version : Version K} {scope : Scope K} {gen : FileId} {st : MajorState K V}
    (h : (if option.isThresholdExceededMajor version 0 then
        majorCompaction io option maxLevel version scope.min scope.max gen
      else .ok ⟨scope.min, scope.max, [], [], [], gen⟩) = .ok st) :
    Writes gen st.nextGen st.files st.edits := by
  split at h
  · obtain ⟨files, edits, hfiles, hedits, w⟩ := majorLoop_writes _ _ _ h
    rw [hfiles, hedits]
    exact w
  · cases h
    exact .skip le_rfl

private theorem minorCompaction_writes {option : DbOption} {tio : TableIo} {gen : FileId}
    {recoverWalIds : Option (List FileId)} {batches : List (Option FileId × Immutable K V)}
    {scope : Scope K} {file : TableFile K V}
    (h : minorCompaction option tio gen recoverWalIds batches = .ok (some (scope, file))) :
    Writes gen (gen + 1) [file] [.add 0 scope] := by
  obtain ⟨hfile, hgen⟩ := minorCompaction_rows h
  refine ⟨Nat.le_succ _, by simp, by simp [hfile], ?_⟩
  intro l scope' he
  simp only [List.mem_singleton, VersionEdit.add.injEq] at he
  obtain ⟨rfl, rfl⟩ := he
  refine ⟨file, List.mem_singleton_self _, by rw [hfile, hgen], by rw [hfile], ?_⟩
  rw [Bounds, if_pos (by rw [hfile])]
  exact (minorCompaction_ok h).2

/-- A point read of the level-0 table a flush writes returns the read of the first
flushed batch, in queue order, that holds a visible version of the key. -/
theorem minorCompaction_get {option : DbOption} {tio : TableIo} {gen : FileId}
    {recoverWalIds : Option (List FileId)} {batches : List (Option FileId × Immutable K V)}
    {scope : Scope K} {file : TableFile K V}
    (h : minorCompaction option tio gen recoverWalIds batches = .ok (some (scope, file)))
    (key : Timestamped K) :
    SsTable.get file.rows key = batches.findSome? fun b => SsTable.get b.2.rows key := by
  rw [(minorCompaction_rows h).1, SsTable.get_flatten, List.findSome?_map]
  rfl

def twoVersionBatches : List (Option FileId × Immutable Nat Nat) :=
  [(some 1, testBatch [3]), (some 2, .new (SkipMap.empty.insert ⟨3, ⟨1⟩⟩ (some 30)))]

theorem minorCompaction_get_of_two_versions :
    ∃ (scope : Scope Nat) (file : TableFile Nat Nat),
      minorCompaction (testOption 1 1) ⟨fun _ _ => none⟩ 7 none twoVersionBatches =
          .ok (some (scope, file)) ∧
        SsTable.get file.rows ⟨3, ⟨5⟩⟩ =
          twoVersionBatches.findSome? fun b => SsTable.get b.2.rows ⟨3, ⟨5⟩⟩ := by
  obtain ⟨scope, file, h⟩ : ∃ (scope : Scope Nat) (file : TableFile Nat Nat),
      minorCompaction (testOption 1 1) ⟨fun _ _ => none⟩ 7 none twoVersionBatches =
        .ok (some (scope, file)) := ⟨_, _, rfl⟩
  exact ⟨scope, file, h, minorCompaction_get h _⟩

/- The older batch comes first in the queue, so a read at stamp 5 of the table flushed from
both finds the version at `EPOCH`, not the one at stamp 1. -/
example : ∃ (scope : Scope Nat) (file : TableFile Nat Nat),
    minorCompaction (testOption 1 1) ⟨fun _ _ => none⟩ 7 none twoVersionBatches =
        .ok (some (scope, file)) ∧
      SsTable.get file.rows ⟨3, ⟨5⟩⟩ = some (⟨3, EPOCH⟩, some 3) :=
  ⟨_, _, rfl, rfl⟩

/-! ## The invariant over whole runs -/

/-- The invariant of versions: every scope the current version lists, at every level,
names a table the compactor wrote at that level under that gen, and bounds it; no two
tables share a gen, and every gen is below the next free id. -/
structure ManifestSound (s : DbState K V) : Prop where
  nodup : (s.files.map (·.gen)).Nodup
  fresh : ∀ f ∈ s.files, f.gen < s.nextGen
  listed : ∀ l, ∀ scope ∈ s.versions.current.levelSlice l,
    ∃ f ∈ s.files, f.gen = scope.gen ∧ f.level = l ∧ Bounds scope f

theorem ManifestSound.step {s s' : DbState K V} {files : List (TableFile K V)}
    {edits : List (VersionEdit K)} (h : ManifestSound s)
    (w : Writes s.nextGen s'.nextGen files edits) (hfiles : s'.files = s.files ++ files)
    (hlisted : ∀ l scope, scope ∈ s'.versions.current.levelSlice l →
      scope ∈ s.versions.current.levelSlice l ∨ VersionEdit.add l scope ∈ edits) :
    ManifestSound s' where
  nodup := hfiles ▸ nodup_gens_append h.nodup w.nodup h.fresh fun f hf => (w.fresh f hf).1
  fresh f hf := by
    rw [hfiles] at hf
    rcases List.mem_append.mp hf with hf | hf
    exacts [(h.fresh f hf).trans_le w.le, (w.fresh f hf).2]
  listed l scope hs := by
    rcases hlisted l scope hs with hs | hs
    · obtain ⟨f, hf, named⟩ := h.listed l scope hs
      exact ⟨f, hfiles ▸ List.mem_append_left _ hf, named⟩
    · obtain ⟨f, hf, named⟩ := w.named l scope hs
      exact ⟨f, hfiles ▸ List.mem_append_right _ hf, named⟩

theorem ManifestSound.frame {s s' : DbState K V} (h : ManifestSound s) (hfiles : s'.files = s.files)
    (hgen : s.nextGen ≤ s'.nextGen) (hversion : s'.versions.current = s.versions.current) :
    ManifestSound s' :=
  h.step (.skip hgen) (by rw [hfiles, List.append_nil]) fun _ _ hs => .inl (hversion ▸ hs)

section Call

variable {io : CompactorIo K V} {option : DbOption} {maxLevel : Nat} {isManual : Bool}

private theorem manifestSound_freeze {wal : WalIo K V} {s : DbState K V} (h : ManifestSound s) :
    ManifestSound (freeze wal option isManual s).1 := by
  rcases freeze_cases wal option isManual s with ⟨-, hfreeze⟩ | ⟨-, queued, -, hfreeze⟩
  · rw [hfreeze]; exact h
  · rw [hfreeze]
    exact h.frame rfl (by dsimp only; split; exacts [Nat.le_succ _, le_rfl]) rfl

private theorem manifestSound_publish {chunkNum : Nat} {scope : Scope K}
    {file : TableFile K V} {s : DbState K V} (h : ManifestSound s)
    (minor : Writes s.nextGen (s.nextGen + 1) [file] [.add 0 scope]) :
    ManifestSound (publish io option maxLevel chunkNum scope
      { s with nextGen := s.nextGen + 1, files := s.files ++ [file] }).1 := by
  rcases publish_cases io option maxLevel chunkNum scope
      { s with nextGen := s.nextGen + 1, files := s.files ++ [file] } with
    hpub | ⟨st, hmajor, hpub | hpub⟩ <;> rw [hpub]
  · exact h.step minor rfl fun _ _ hs => .inl hs
  · exact h.step (minor.append (publishMajor_writes hmajor)) (List.append_assoc _ _ _)
      fun _ _ hs => .inl hs
  · refine h.step ((minor.append (publishMajor_writes hmajor)).of_adds fun l scope' he => ?_)
      (List.append_assoc _ _ _) fun l scope' hs => Version.mem_applyEdits hs
    simpa using he

private theorem manifestSound_flushQueue {s : DbState K V}
    (h : ManifestSound s) : ManifestSound (flushQueue io option maxLevel isManual s).1 := by
  have taken : ManifestSound { s with storage := { s.storage with recoverWalIds := none } } :=
    h.frame rfl le_rfl rfl
  rcases flushQueue_cases io option maxLevel isManual s with
    ⟨-, hflush⟩ | ⟨-, ⟨e, hflush⟩ | ⟨-, -, hflush⟩ | ⟨scope, file, -, hminor, hflush⟩⟩ <;>
    rw [hflush]
  · exact h
  · exact taken
  · exact taken.frame rfl le_rfl rfl
  · exact manifestSound_publish taken (minorCompaction_writes hminor)

private theorem checkThenCompaction_manifestSound {s : DbState K V}
    (h : ManifestSound s) : ManifestSound (checkThenCompaction io option maxLevel isManual s).1 := by
  rcases checkThenCompaction_cases io option maxLevel isManual s with hcall | hcall <;> rw [hcall]
  · exact manifestSound_freeze h
  · exact manifestSound_flushQueue (manifestSound_freeze h)

end Call

private theorem manifestSound_new (option : DbOption) :
    ManifestSound (DbState.new option : DbState K V) where
  nodup := List.nodup_nil
  fresh _ hf := by cases hf
  listed l scope hs := by simp [DbState.new, Version.ofLevels] at hs

/-- In every run from a new store, in which a failed call aborts and the store goes on
from the state it left, whatever order each merge yields its rows in: every scope of the
current version, at every level, names a table written at that level under that gen, and
no two tables share a gen. A scope of level 0 contains the key of each row of its table; a
deeper one runs from the key of its table's first row to that of its last. -/
theorem runPastFailures_manifestSound {option : DbOption} {maxLevel : Nat}
    {checkIfExceed : Option V → Bool} (steps : List (Step K V)) :
    ManifestSound (runPastFailures option maxLevel checkIfExceed (DbState.new option) steps) :=
  runPastFailures_preserves ManifestSound steps (fun _ _ _ h => ⟨h.nodup, h.fresh, h.listed⟩)
    (fun _ _ _ _ h => checkThenCompaction_manifestSound h) _ (manifestSound_new option)

/- Level 0 holds a table flushed from the batches [3, 5, 6] and [1, 2, 4], in queue order,
and the table [7]. Merging them past level 0 yields the keys in the order 3, 5, 6, 1, 2,
4, 7, and `build_tables` names the table it writes by the scope [3, 7], which does not
contain the keys 1 and 2 the table holds. -/
example :
    ∃ st, majorCompaction
        (tableIo (fun gen => if gen = 1 then keyRows [3, 5, 6, 1, 2, 4] else keyRows [7])
          (.ofLevels [[⟨1, 6, 1, none⟩, ⟨7, 7, 2, none⟩]]))
        (testOption 1 1) 3 (.ofLevels [[⟨1, 6, 1, none⟩, ⟨7, 7, 2, none⟩]]) 1 7 3 = .ok st ∧
      st.edits = [.add 1 ⟨3, 7, 3, none⟩, .remove 0 1, .remove 0 2] ∧
      st.files.map (·.rows) = [keyRows [3, 5, 6, 1, 2, 4, 7]] :=
  ⟨_, rfl, rfl, rfl⟩

end Tonbo.Compaction.Manifest
