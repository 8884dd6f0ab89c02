/- Major compaction: merging the tables of a level that meet a key window into the next.
   source: src/src/compaction/mod.rs (`Compactor::major_compaction`,
           `Compactor::build_tables`, `Compactor::build_table`)
   digest: rounds run from level 0 while the level is over its threshold; each merges
           the selected scopes of levels L and L+1 into new tables of L+1 and removes
           the selected scopes. Every round reads the version the call was given. -/

import Tonbo.Compaction.Select

set_option autoImplicit false
set_option relaxedAutoImplicit false

namespace Tonbo.Compaction.Major

open Tonbo.Key Tonbo.Skiplist Tonbo.Levels Tonbo.Inmem.ImmutableTable Tonbo.Compaction.Minor
  Tonbo.Compaction.Select

variable {K V : Type} [LinearOrder K]

/-- `ScanStream`, the sources one round merges, with the file system they are read
through. -/
inductive ScanStream (K : Type) where
  /-- A level-0 table scanned whole. -/
  | ssTable (gen : FileId) (fs : String)
  /-- A `LevelStream` over the scopes `start ..= finish` of a level, keys in
  `[lower, upper]`. -/
  | level (level start finish : Nat) (lower upper : K) (fs : String)
  deriving DecidableEq, Repr

def ScanStream.fs : ScanStream K → String
  | .ssTable _ fs => fs
  | .level _ _ _ _ _ fs => fs

/-- What major compaction reads from outside the compactor: whether opening a level-0
table fails, the merge of a round's sources, the table writer, and the builder's
`written_size` for the rows pushed since its last finish. -/
structure MajorIo (K V : Type) where
  openFails : Nat → FileId → Option CompactionError
  merge : List (ScanStream K) → Except CompactionError (List (Row K V))
  tables : TableIo
  writtenSize : List (Row K V) → Nat

/-- Modelled from the spec: `LevelStream::new`, a stream over the scopes `start ..= finish`
of a level, absent when that window names no scope of it. -/
def levelStreamNew (version : Version K) (level start finish : Nat) (lower upper : K)
    (fs : String) : Option (ScanStream K) :=
  if start ≤ finish ∧ finish < (version.levelSlice level).length then
    some (.level level start finish lower upper fs)
  else none

/-- The table builder of `build_tables`: the rows pushed since the last finish, and the
first and last key pushed. -/
structure Builder (K V : Type) where
  rows : List (Row K V)
  min : Option K
  max : Option K

/-- What `build_tables` has produced so far: its `Add` edits, the tables written, and the
next id `generate_file_id` hands out. -/
structure Built (K V : Type) where
  edits : List (VersionEdit K)
  files : List (TableFile K V)
  nextGen : FileId

/-- `Compactor::build_table`: write the builder's rows as a table of `level` under a
fresh id and push its `Add`, taking the builder's `min` and `max`. -/
def buildTable (io : TableIo) (level : Nat) (fs : String) (builder : Builder K V)
    (built : Built K V) : Except CompactionError (Builder K V × Built K V) :=
  match io.writeFails level built.nextGen, builder.min, builder.max with
  | some e, _, _ => .error e
  | none, some min, some max =>
    .ok (⟨[], none, none⟩,
      ⟨built.edits ++ [.add level ⟨min, max, built.nextGen, none⟩],
        built.files ++ [⟨built.nextGen, level, builder.rows, fs⟩], built.nextGen + 1⟩)
  | none, _, _ => .error .emptyLevel

/-- The loop of `Compactor::build_tables` over the merged rows: push each row, and
finish a table whenever the written size reaches `max_sst_file_size`; after the last
row, finish what is left if anything was written. -/
def buildTablesLoop (io : MajorIo K V) (option : DbOption) (level : Nat) (fs : String) :
    List (Row K V) → Builder K V → Built K V → Except CompactionError (Built K V)
  | [], builder, built =>
    if io.writtenSize builder.rows > 0 then
      (buildTable io.tables level fs builder built).map Prod.snd
    else .ok built
  | entry :: rest, builder, built =>
    let builder : Builder K V := ⟨builder.rows ++ [entry],
      if builder.min.isNone then some entry.1.value else builder.min, some entry.1.value⟩
    if io.writtenSize builder.rows ≥ option.maxSstFileSize then
      match buildTable io.tables level fs builder built with
      | .error e => .error e
      | .ok (builder, built) => buildTablesLoop io option level fs rest builder built
    else buildTablesLoop io option level fs rest builder built

/-- `Compactor::build_tables`: merge the sources and cut the merged rows into new tables
of `level`. -/
def buildTables (io : MajorIo K V) (option : DbOption) (level : Nat)
    (streams : List (ScanStream K)) (fs : String) (nextGen : FileId) :
    Except CompactionError (Built K V) := do
  let entries ← io.merge streams
  buildTablesLoop io option level fs entries ⟨[], none, none⟩ ⟨[], [], nextGen⟩

/-- A level-0 table of the selection, opened through the level's file system and
scanned whole. -/
def openTable (io : MajorIo K V) (level : Nat) (fs : String) (scope : Scope K) :
    Except Failure (ScanStream K) :=
  match io.openFails level scope.gen with
  | some e => .error (.error e)
  | none => .ok (.ssTable scope.gen fs)

/-- The `LevelStream` over a selection of a level `≥ 1`, bounded by `full_scope` of the
selection; `EmptyLevel` when `LevelStream::new` gives none. -/
def levelScan (version : Version K) (level start finish : Nat) (meetScopes : List (Scope K))
    (fs : String) : Except Failure (ScanStream K) := do
  let (lower, upper) ← fullScope meetScopes
  match levelStreamNew version level start finish lower upper fs with
  | some stream => pure stream
  | none => throw (.error .emptyLevel)

/-- The sources for the selection of `level`: each level-0 table scanned whole, or one
level stream over the selection of a deeper level. -/
def thisLevelStreams (io : MajorIo K V) (version : Version K) (level startL endL : Nat)
    (meetScopesL : List (Scope K)) (fs : String) : Except Failure (List (ScanStream K)) :=
  if level = 0 then meetScopesL.mapM (openTable io level fs)
  else (levelScan version level startL endL meetScopesL fs).map ([·])

/-- The source for the selection of `level + 1`: a level stream, none when nothing of
that level was selected. -/
def nextLevelStreams (version : Version K) (level : Nat) (next : NextLevel K) (fs : String) :
    Except Failure (List (ScanStream K)) :=
  if next.scopes.isEmpty then .ok []
  else (levelScan version (level + 1) next.startLl next.endLl next.scopes fs).map ([·])

/-- What the rounds of one call accumulate: the window, refined by each round, the
edits and deleted gens, the tables written, and the next free id. -/
structure MajorState (K V : Type) where
  min : K
  max : K
  edits : List (VersionEdit K)
  deleteGens : List (FileId × Nat)
  files : List (TableFile K V)
  nextGen : FileId

/-- One round of the loop of `Compactor::major_compaction` at `level`, with the sources it
merges. -/
def majorRound (io : MajorIo K V) (option : DbOption) (version : Version K) (level : Nat)
    (st : MajorState K V) : Except Failure (List (ScanStream K) × MajorState K V) := do
  let (meetScopesL, startL, endL) ← thisLevelScopes option version st.min st.max level
  let next ← nextLevelScopes version st.min st.max level meetScopesL
  let levelPath := (option.levelFsPath level).getD option.basePath
  let streamsL ← thisLevelStreams io version level startL endL meetScopesL levelPath
  let streamsLl ← nextLevelStreams version level next levelPath
  let streams := streamsL ++ streamsLl
  let levelLPath := (option.levelFsPath (level + 1)).getD option.basePath
  let built ← (buildTables io option (level + 1) streams levelLPath st.nextGen).mapError .error
  pure (streams,
    { min := next.min, max := next.max,
      edits := st.edits ++ built.edits ++ meetScopesL.map (fun scope => .remove level scope.gen)
        ++ next.scopes.map (fun scope => .remove (level + 1) scope.gen),
      deleteGens := st.deleteGens ++ meetScopesL.map (fun scope => (scope.gen, level))
        ++ next.scopes.map (fun scope => (scope.gen, level + 1)),
      files := st.files ++ built.files, nextGen := built.nextGen })

/-- The loop of `Compactor::major_compaction`, `fuel` rounds at most from `level`,
stopping at the first level within its threshold. -/
def majorLoop (io : MajorIo K V) (option : DbOption) (version : Version K) :
    Nat → Nat → MajorState K V → Except Failure (MajorState K V)
  | 0, _, st => .ok st
  | fuel + 1, level, st =>
    if option.isThresholdExceededMajor version level then
      match majorRound io option version level st with
      | .error e => .error e
      | .ok (_, st) => majorLoop io option version fuel (level + 1) st
    else .ok st

/-- `Compactor::major_compaction` from the window `[min, max]`: rounds at the levels below
`MAX_LEVEL - 2`. -/
def majorCompaction (io : MajorIo K V) (option : DbOption) (maxLevel : Nat)
    (version : Version K) (min max : K) (nextGen : FileId) : Except Failure (MajorState K V) :=
  majorLoop io option version (maxLevel - 2) 0 ⟨min, max, [], [], [], nextGen⟩

/-! ## What one round does -/

section Round

variable {io : MajorIo K V} {option : DbOption} {version : Version K}

omit [LinearOrder K] in
private theorem mapM_openTable {level : Nat} {fs : String} {meet : List (Scope K)}
    {streams : List (ScanStream K)} (h : meet.mapM (openTable io level fs) = .ok streams) :
    streams = meet.map fun scope => .ssTable scope.gen fs := by
  induction meet generalizing streams with
  | nil => cases h; rfl
  | cons scope rest ih =>
    simp only [List.mapM_cons, bind_eq_ok, pure] at h
    obtain ⟨stream, hstream, tail, htail, h⟩ := h
    unfold openTable at hstream
    split at hstream
    · cases hstream
    · cases hstream; cases h; rw [ih htail]; rfl

omit [LinearOrder K] in
private theorem levelScan_ok {level start finish : Nat} {meet : List (Scope K)} {fs : String}
    {stream : ScanStream K} (h : levelScan version level start finish meet fs = .ok stream) :
    ∃ lower upper, fullScope meet = .ok (lower, upper) ∧ start ≤ finish ∧
      finish < (version.levelSlice level).length ∧
      stream = .level level start finish lower upper fs := by
  unfold levelScan at h
  obtain ⟨⟨lower, upper⟩, hscope, h⟩ := bind_eq_ok.mp h
  dsimp only at h
  split at h
  · rename_i stream' hnew
    cases h
    unfold levelStreamNew at hnew
    split at hnew
    · rename_i within
      cases hnew; exact ⟨lower, upper, hscope, within.1, within.2, rfl⟩
    · cases hnew
  · cases h

omit [LinearOrder K] in
private theorem thisLevelStreams_ok {level startL endL : Nat} {meet : List (Scope K)} {fs : String}
    {streams : List (ScanStream K)}
    (h : thisLevelStreams io version level startL endL meet fs = .ok streams) :
    (level = 0 → streams = meet.map fun scope => .ssTable scope.gen fs) ∧
      (level ≠ 0 → ∃ lower upper, fullScope meet = .ok (lower, upper) ∧ startL ≤ endL ∧
        endL < (version.levelSlice level).length ∧
        streams = [.level level startL endL lower upper fs]) := by
  unfold thisLevelStreams at h
  split at h
  · exact ⟨fun _ => mapM_openTable h, fun h0 => absurd ‹_› h0⟩
  · refine ⟨fun h0 => absurd h0 ‹_›, fun _ => ?_⟩
    obtain ⟨stream, hs, rfl⟩ := map_eq_ok.mp h
    obtain ⟨lower, upper, hscope, h1, h2, rfl⟩ := levelScan_ok hs
    exact ⟨lower, upper, hscope, h1, h2, rfl⟩

omit [LinearOrder K] in
private theorem nextLevelStreams_ok {level : Nat} {next : NextLevel K} {fs : String}
    {streams : List (ScanStream K)} (h : nextLevelStreams version level next fs = .ok streams) :
    (next.scopes = [] → streams = []) ∧
      (next.scopes ≠ [] → ∃ lower upper, fullScope next.scopes = .ok (lower, upper) ∧
        next.startLl ≤ next.endLl ∧ next.endLl < (version.levelSlice (level + 1)).length ∧
        streams = [.level (level + 1) next.startLl next.endLl lower upper fs]) := by
  unfold nextLevelStreams at h
  split at h
  · rename_i empty
    exact ⟨fun _ => (Except.ok.inj h).symm, fun ne => absurd (List.isEmpty_iff.mp empty) ne⟩
  · rename_i nonempty
    refine ⟨fun empty => absurd (List.isEmpty_iff.mpr empty) nonempty, fun _ => ?_⟩
    obtain ⟨stream, hs, rfl⟩ := map_eq_ok.mp h
    obtain ⟨lower, upper, hscope, h1, h2, rfl⟩ := levelScan_ok hs
    exact ⟨lower, upper, hscope, h1, h2, rfl⟩

def Built.Extends (level : Nat) (built built' : Built K V) : Prop :=
  built.nextGen ≤ built'.nextGen ∧
    (∃ adds : List (Scope K), built'.edits = built.edits ++ adds.map (.add level)) ∧
    ∃ files : List (TableFile K V), built'.files = built.files ++ files ∧
      ∀ f ∈ files, f.level = level

omit [LinearOrder K] in
theorem Built.Extends.refl (level : Nat) (built : Built K V) : built.Extends level built :=
  ⟨le_rfl, ⟨[], by simp⟩, [], by simp, by simp⟩

omit [LinearOrder K] in
theorem Built.Extends.trans {level : Nat} {a b c : Built K V} (hab : a.Extends level b)
    (hbc : b.Extends level c) : a.Extends level c := by
  obtain ⟨gen1, ⟨adds1, edits1⟩, files1, hfiles1, level1⟩ := hab
  obtain ⟨gen2, ⟨adds2, edits2⟩, files2, hfiles2, level2⟩ := hbc
  refine ⟨gen1.trans gen2, ⟨adds1 ++ adds2, by simp [edits1, edits2]⟩, files1 ++ files2,
    by simp [hfiles1, hfiles2], fun f hf => ?_⟩
  rcases List.mem_append.mp hf with hf | hf
  exacts [level1 f hf, level2 f hf]

omit [LinearOrder K] in
private theorem buildTable_extends {tio : TableIo} {level : Nat} {fs : String}
    {builder builder' : Builder K V} {built built' : Built K V}
    (h : buildTable tio level fs builder built = .ok (builder', built')) :
    built.Extends level built' := by
  unfold buildTable at h
  split at h
  · cases h
  · cases h
    exact ⟨Nat.le_succ _, ⟨[_], rfl⟩, [_], rfl, by simp⟩
  · cases h

omit [LinearOrder K] in
private theorem buildTablesLoop_preserves {level : Nat} {fs : String} (R : Built K V → Built K V → Prop)
    (refl : ∀ b, R b b) (trans : ∀ {a b c}, R a b → R b c → R a c)
    (step : ∀ {builder builder' : Builder K V} {built built' : Built K V},
      buildTable io.tables level fs builder built = .ok (builder', built') → R built built')
    (rows : List (Row K V)) (builder : Builder K V) (built : Built K V) {built' : Built K V}
    (h : buildTablesLoop io option level fs rows builder built = .ok built') : R built built' := by
  induction rows generalizing builder built with
  | nil =>
    unfold buildTablesLoop at h
    split at h
    · obtain ⟨⟨b, bt⟩, hb, rfl⟩ := map_eq_ok.mp h
      exact step hb
    · cases h; exact refl _
  | cons entry rest ih =>
    unfold buildTablesLoop at h
    dsimp only at h
    split at h
    · split at h
      · cases h
      · rename_i b bt hb
        exact trans (step hb) (ih b bt h)
    · exact ih _ _ h

omit [LinearOrder K] in
private theorem buildTablesLoop_extends {level : Nat} {fs : String} (rows : List (Row K V))
    (builder : Builder K V) (built : Built K V) {built' : Built K V}
    (h : buildTablesLoop io option level fs rows builder built = .ok built') :
    built.Extends level built' :=
  buildTablesLoop_preserves _ (Built.Extends.refl level) Built.Extends.trans buildTable_extends
    rows builder built h

omit [LinearOrder K] in
theorem buildTables_extends {level : Nat} {streams : List (ScanStream K)} {fs : String}
    {gen : FileId} {built : Built K V}
    (h : buildTables io option level streams fs gen = .ok built) :
    Built.Extends level ⟨[], [], gen⟩ built := by
  obtain ⟨rows, -, h⟩ := bind_eq_ok.mp h
  exact buildTablesLoop_extends rows _ _ h

theorem majorRound_ok {level : Nat} {st st' : MajorState K V} {streams : List (ScanStream K)}
    (h : majorRound io option version level st = .ok (streams, st')) :
    ∃ meet startL endL next streamsL streamsLl built,
      thisLevelScopes option version st.min st.max level = .ok (meet, startL, endL) ∧
      nextLevelScopes version st.min st.max level meet = .ok next ∧
      thisLevelStreams io version level startL endL meet
        ((option.levelFsPath level).getD option.basePath) = .ok streamsL ∧
      nextLevelStreams version level next ((option.levelFsPath level).getD option.basePath) =
        .ok streamsLl ∧
      buildTables io option (level + 1) (streamsL ++ streamsLl)
        ((option.levelFsPath (level + 1)).getD option.basePath) st.nextGen = .ok built ∧
      streams = streamsL ++ streamsLl ∧
      st'.min = next.min ∧ st'.max = next.max ∧
      st'.edits = st.edits ++ built.edits ++ meet.map (fun scope => .remove level scope.gen)
        ++ next.scopes.map (fun scope => .remove (level + 1) scope.gen) ∧
      st'.deleteGens = st.deleteGens ++ meet.map (fun scope => (scope.gen, level))
        ++ next.scopes.map (fun scope => (scope.gen, level + 1)) ∧
      st'.files = st.files ++ built.files ∧ st'.nextGen = built.nextGen := by
  unfold majorRound at h
  obtain ⟨⟨meet, startL, endL⟩, hthis, h⟩ := bind_eq_ok.mp h
  obtain ⟨next, hnext, h⟩ := bind_eq_ok.mp h
  obtain ⟨streamsL, hL, h⟩ := bind_eq_ok.mp h
  obtain ⟨streamsLl, hLl, h⟩ := bind_eq_ok.mp h
  obtain ⟨built, hbuilt, h⟩ := bind_eq_ok.mp h
  cases h
  exact ⟨meet, startL, endL, next, streamsL, streamsLl, built, hthis, hnext, hL, hLl,
    mapError_eq_ok.mp hbuilt, rfl, rfl, rfl, rfl, rfl, rfl, rfl⟩

/-- A source of a round reads the scope `s` of level `l` whole: a level-0 table by the
scan of its gen, a deeper one by a level stream of that level whose index window holds a
position of `s` and whose key range holds its interval. -/
def ScannedBy (version : Version K) (streams : List (ScanStream K)) (l : Nat) (s : Scope K) :
    Prop :=
  if l = 0 then ∃ fs, ScanStream.ssTable s.gen fs ∈ streams
  else ∃ start finish lower upper fs i, ScanStream.level l start finish lower upper fs ∈ streams ∧
    start ≤ i ∧ i ≤ finish ∧ (version.levelSlice l)[i]? = some s ∧ lower ≤ s.min ∧ s.max ≤ upper

private theorem scannedBy_level {streams : List (ScanStream K)} {l start finish i : Nat}
    {sel : List (Scope K)} {lower upper : K} {fs : String} {s : Scope K}
    (layout : SortedDisjoint (version.levelSlice l)) (wf : WellFormed (version.levelSlice l))
    (hl : l ≠ 0) (sub : sel.Sublist (version.levelSlice l))
    (hscope : fullScope sel = .ok (lower, upper)) (hs : s ∈ sel)
    (mem : ScanStream.level l start finish lower upper fs ∈ streams)
    (within : start ≤ i ∧ i ≤ finish) (hget : (version.levelSlice l)[i]? = some s) :
    ScannedBy version streams l s := by
  rw [ScannedBy, if_neg hl]
  exact ⟨start, finish, lower, upper, fs, i, mem, within.1, within.2, hget,
    fullScope_covers ((layout.ascending wf).sublist sub) (fun x hx => wf x (sub.subset hx))
      hscope s hs⟩

/-- On a version whose deeper levels are sorted, disjoint and made of non-empty scopes,
every scope a round removes is a scope of the version that one of the round's sources
reads whole. -/
theorem majorRound_removes_only_scanned {level : Nat} {st st' : MajorState K V}
    {streams : List (ScanStream K)}
    (layout : ∀ l, 1 ≤ l → SortedDisjoint (version.levelSlice l))
    (wf : ∀ l, 1 ≤ l → WellFormed (version.levelSlice l))
    (round : majorRound io option version level st = .ok (streams, st')) :
    ∃ emitted, st'.edits = st.edits ++ emitted ∧
      ∀ l gen, VersionEdit.remove l gen ∈ emitted →
        ∃ s ∈ version.levelSlice l, s.gen = gen ∧ ScannedBy version streams l s := by
  obtain ⟨meet, startL, endL, next, streamsL, streamsLl, built, hthis, hnext, hL, hLl, hbuilt,
    rfl, -, -, hedits, -⟩ := majorRound_ok round
  obtain ⟨adds, hadds⟩ := (buildTables_extends hbuilt).2.1
  refine ⟨adds.map (.add (level + 1)) ++ meet.map (fun scope => .remove level scope.gen)
    ++ next.scopes.map (fun scope => .remove (level + 1) scope.gen),
    by rw [hedits, hadds]; simp only [List.nil_append, List.append_assoc], fun l gen hmem => ?_⟩
  simp only [List.mem_append, List.mem_map] at hmem
  rcases hmem with (⟨s, -, h⟩ | ⟨s, hs, h⟩) | ⟨s, hs, h⟩
  · cases h
  · -- a scope of the selection of `level`
    cases h
    obtain ⟨k, hmeet, hk⟩ := thisLevelScopes_slice hthis
    obtain ⟨i, hi1, hi2, hget⟩ := exists_index_of_mem_slice (hmeet ▸ hs)
    refine ⟨s, List.getElem?_mem hget, rfl, ?_⟩
    by_cases h0 : level = 0
    · rw [ScannedBy, if_pos h0]
      exact ⟨_, List.mem_append_left _ ((thisLevelStreams_ok hL).1 h0 ▸ List.mem_map_of_mem _ hs)⟩
    · obtain ⟨lower, upper, hscope, -, -, hsL⟩ := (thisLevelStreams_ok hL).2 h0
      exact scannedBy_level (layout level (by omega)) (wf level (by omega)) h0
        (hmeet ▸ (List.take_sublist _ _).trans (List.drop_sublist _ _)) hscope hs
        (List.mem_append_left _ (hsL ▸ List.mem_singleton_self _)) ⟨hi1, by omega⟩ hget
  · -- a scope of the selection of `level + 1`
    cases h
    obtain ⟨sub, index⟩ := nextLevelScopes_scopes hnext
    obtain ⟨i, hi1, hi2, hget⟩ := index s hs
    obtain ⟨lower, upper, hscope, -, -, hsLl⟩ := (nextLevelStreams_ok hLl).2 (List.ne_nil_of_mem hs)
    exact ⟨s, List.getElem?_mem hget, rfl, scannedBy_level (layout _ (by omega)) (wf _ (by omega))
      (Nat.succ_ne_zero level) sub hscope hs
      (List.mem_append_right _ (hsLl ▸ List.mem_singleton_self _)) ⟨hi1, hi2⟩ hget⟩

end Round

/-! ## The loop -/

section Loop

variable {io : MajorIo K V} {option : DbOption} {version : Version K}

private theorem majorLoop_of_not_exceeded {fuel level : Nat} {st : MajorState K V}
    (h : option.isThresholdExceededMajor version level = false) :
    majorLoop io option version fuel level st = .ok st := by
  cases fuel <;> simp [majorLoop, h]

private theorem majorLoop_add_fuel (fuel extra level : Nat) (st : MajorState K V)
    (h : option.isThresholdExceededMajor version (level + fuel) = false) :
    majorLoop io option version (fuel + extra) level st =
      majorLoop io option version fuel level st := by
  induction fuel generalizing level st with
  | zero =>
    rw [Nat.add_zero] at h
    rw [Nat.zero_add, majorLoop_of_not_exceeded h, majorLoop_of_not_exceeded h]
  | succ fuel ih =>
    rw [Nat.succ_add]
    simp only [majorLoop]
    split
    · split
      · rfl
      · exact ih _ _ (by rwa [show level + 1 + fuel = level + (fuel + 1) by omega])
    · rfl

private theorem majorCompaction_add_levels {min max : K} {gen : FileId} (fuel extra : Nat)
    (h : option.isThresholdExceededMajor version fuel = false) :
    majorCompaction io option (fuel + 2 + extra) version min max gen =
      majorCompaction io option (fuel + 2) version min max gen := by
  unfold majorCompaction
  rw [show fuel + 2 + extra - 2 = fuel + extra by omega, Nat.add_sub_cancel]
  exact majorLoop_add_fuel fuel extra 0 _ (by rwa [Nat.zero_add])

def MajorState.Grows (st st' : MajorState K V) : Prop :=
  st.nextGen ≤ st'.nextGen ∧
    (∃ files : List (TableFile K V), st'.files = st.files ++ files ∧ ∀ f ∈ files, f.level ≠ 0) ∧
    ∃ edits : List (VersionEdit K), st'.edits = st.edits ++ edits ∧
      ∀ e ∈ edits, ∀ scope, e ≠ .add 0 scope

omit [LinearOrder K] in
theorem MajorState.Grows.refl (st : MajorState K V) : st.Grows st :=
  ⟨le_rfl, ⟨[], by simp, by simp⟩, [], by simp, by simp⟩

omit [LinearOrder K] in
theorem MajorState.Grows.trans {a b c : MajorState K V} (hab : a.Grows b) (hbc : b.Grows c) :
    a.Grows c := by
  obtain ⟨gen1, ⟨files1, hfiles1, level1⟩, edits1, hedits1, add1⟩ := hab
  obtain ⟨gen2, ⟨files2, hfiles2, level2⟩, edits2, hedits2, add2⟩ := hbc
  refine ⟨gen1.trans gen2, ⟨files1 ++ files2, by simp [hfiles1, hfiles2], fun f hf => ?_⟩,
    edits1 ++ edits2, by simp [hedits1, hedits2], fun e he => ?_⟩
  · rcases List.mem_append.mp hf with hf | hf
    exacts [level1 f hf, level2 f hf]
  · rcases List.mem_append.mp he with he | he
    exacts [add1 e he, add2 e he]

private theorem majorRound_grows {level : Nat} {st st' : MajorState K V} {streams : List (ScanStream K)}
    (h : majorRound io option version level st = .ok (streams, st')) : st.Grows st' := by
  obtain ⟨meet, -, -, next, streamsL, streamsLl, built, -, -, -, -, hbuilt, -, -, -, hedits, -,
    hfiles, hgen⟩ := majorRound_ok h
  obtain ⟨gen, ⟨adds, hadds⟩, files, hfiles', hlevel⟩ := buildTables_extends hbuilt
  refine ⟨by rw [hgen]; exact gen, ⟨files, by rw [hfiles, hfiles']; rfl, fun f hf => by
      rw [hlevel f hf]; omega⟩,
    adds.map (.add (level + 1)) ++ meet.map (fun scope => .remove level scope.gen)
      ++ next.scopes.map (fun scope => .remove (level + 1) scope.gen),
    by rw [hedits, hadds]; simp only [List.nil_append, List.append_assoc], ?_⟩
  intro e he scope
  simp only [List.mem_append, List.mem_map] at he
  rcases he with (⟨s, -, rfl⟩ | ⟨s, -, rfl⟩) | ⟨s, -, rfl⟩ <;> simp

private theorem majorLoop_grows (fuel level : Nat) (st : MajorState K V) {st' : MajorState K V}
    (h : majorLoop io option version fuel level st = .ok st') : st.Grows st' := by
  induction fuel generalizing level st with
  | zero => cases h; exact .refl _
  | succ fuel ih =>
    simp only [majorLoop] at h
    split at h
    · cases hround : majorRound io option version level st with
      | error e => rw [hround] at h; cases h
      | ok r => rw [hround] at h; exact (majorRound_grows hround).trans (ih _ _ h)
    · cases h; exact .refl _

theorem majorCompaction_grows {maxLevel : Nat} {min max : K} {gen : FileId}
    {st : MajorState K V} (h : majorCompaction io option maxLevel version min max gen = .ok st) :
    MajorState.Grows ⟨min, max, [], [], [], gen⟩ st :=
  majorLoop_grows _ _ _ h

end Loop

/-! The merge, modelled from the spec, for running the compactor on concrete tables. -/

/-- Modelled from the spec: the rows a source yields, given the rows of each table by
its gen: a level-0 table whole, or the tables `start ..= finish` of a level restricted to
`[lower, upper]`. -/
def ScanStream.rows (tables : FileId → List (Row K V)) (version : Version K) :
    ScanStream K → List (Row K V)
  | .ssTable gen _ => tables gen
  | .level l start finish lower upper _ =>
    (((version.levelSlice l).drop start).take (finish + 1 - start)).flatMap fun scope =>
      (tables scope.gen).filter fun row => lower ≤ row.1.value ∧ row.1.value ≤ upper

/-- Modelled from the spec: one pop of the heap of `MergeStream`: the least head of the
sources in (key asc, ts desc) order, the earliest source's on a tie, with the sources left
once it is taken. -/
def popLeast : List (List (Row K V)) → Option (Row K V × List (List (Row K V)))
  | [] => none
  | [] :: rest => (popLeast rest).map fun popped => (popped.1, [] :: popped.2)
  | (head :: tail) :: rest =>
    match popLeast rest with
    | some (row, rest') =>
      if row.1 < head.1 then some (row, (head :: tail) :: rest') else some (head, tail :: rest)
    | none => some (head, tail :: rest)

/-- Modelled from the spec: `MergeStream` polled to its end, at most `fuel` pops: each
yields the least head, except a head whose (key, ts) was just yielded from an earlier
source, which loses to it. -/
def mergeLoop : Nat → Option (Timestamped K) → List (List (Row K V)) → List (Row K V)
  | 0, _, _ => []
  | fuel + 1, last, sources =>
    match popLeast sources with
    | none => []
    | some (row, rest) =>
      if last = some row.1 then mergeLoop fuel last rest
      else row :: mergeLoop fuel (some row.1) rest

/-- Modelled from the spec: `MergeStream::from_vec` over the sources of a round, polled
until every row has been popped. -/
def mergeStreams (tables : FileId → List (Row K V)) (version : Version K)
    (streams : List (ScanStream K)) : List (Row K V) :=
  let sources := streams.map (ScanStream.rows tables version)
  mergeLoop sources.flatten.length none sources

private theorem popLeast_eq_none {sources : List (List (Row K V))} (h : popLeast sources = none) :
    sources.flatten = [] := by
  induction sources with
  | nil => rfl
  | cons source rest ih =>
    rcases source with _ | ⟨head, tail⟩
    · exact ih (Option.map_eq_none'.mp h)
    · simp only [popLeast] at h
      split at h
      · split at h <;> cases h
      · cases h

private theorem popLeast_perm {sources rest : List (List (Row K V))} {row : Row K V}
    (h : popLeast sources = some (row, rest)) : (row :: rest.flatten).Perm sources.flatten := by
  induction sources generalizing row rest with
  | nil => cases h
  | cons source sources ih =>
    rcases source with _ | ⟨head, tail⟩
    · obtain ⟨⟨row', rest'⟩, hpop, heq⟩ := Option.map_eq_some'.mp h
      cases heq
      simpa using ih hpop
    · simp only [popLeast] at h
      split at h
      · rename_i row' rest' hpop
        split at h <;> cases h
        · exact List.perm_middle.symm.trans ((ih hpop).append_left _)
        · exact .refl _
      · cases h
        exact .refl _

private theorem popLeast_least {sources rest : List (List (Row K V))} {row : Row K V}
    (sorted : ∀ s ∈ sources, Sorted s) (h : popLeast sources = some (row, rest)) :
    (∀ s ∈ rest, Sorted s) ∧ ∀ r ∈ sources.flatten, row.1 ≤ r.1 := by
  induction sources generalizing row rest with
  | nil => cases h
  | cons source sources ih =>
    have sortedRest := fun s hs => sorted s (List.mem_cons_of_mem _ hs)
    rcases source with _ | ⟨head, tail⟩
    · obtain ⟨⟨row', rest'⟩, hpop, heq⟩ := Option.map_eq_some'.mp h
      cases heq
      obtain ⟨restSorted, least⟩ := ih sortedRest hpop
      refine ⟨fun s hs => ?_, least⟩
      rcases List.mem_cons.mp hs with rfl | hs
      exacts [List.Pairwise.nil, restSorted s hs]
    · have sortedHead := List.pairwise_cons.mp (sorted _ (List.mem_cons_self _ _))
      have headLeast : ∀ r ∈ head :: tail, head.1 ≤ r.1 := fun r hr => by
        rcases List.mem_cons.mp hr with rfl | hr
        exacts [le_rfl, (sortedHead.1 r hr).le]
      have taken : ∀ s ∈ tail :: sources, Sorted s := fun s hs => by
        rcases List.mem_cons.mp hs with rfl | hs
        exacts [sortedHead.2, sortedRest s hs]
      simp only [popLeast] at h
      split at h
      · rename_i row' rest' hpop
        obtain ⟨restSorted, least⟩ := ih sortedRest hpop
        split at h <;> cases h
        · rename_i lt
          refine ⟨fun s hs => ?_, fun r hr => ?_⟩
          · rcases List.mem_cons.mp hs with rfl | hs
            exacts [sorted _ (List.mem_cons_self _ _), restSorted s hs]
          · rcases List.mem_append.mp (List.flatten_cons ▸ hr) with hr | hr
            exacts [lt.le.trans (headLeast r hr), least r hr]
        · rename_i ge
          refine ⟨taken, fun r hr => ?_⟩
          rcases List.mem_append.mp (List.flatten_cons ▸ hr) with hr | hr
          exacts [headLeast r hr, (not_lt.mp ge).trans (least r hr)]
      · rename_i hpop
        cases h
        refine ⟨taken, fun r hr => ?_⟩
        rw [List.flatten_cons, popLeast_eq_none hpop, List.append_nil] at hr
        exact headLeast r hr

private theorem mergeLoop_sorted (fuel : Nat) {last : Option (Timestamped K)}
    {sources : List (List (Row K V))} (sorted : ∀ s ∈ sources, Sorted s)
    (above : ∀ k, last = some k → ∀ r ∈ sources.flatten, k ≤ r.1) :
    Sorted (mergeLoop fuel last sources) ∧
      ∀ k, last = some k → ∀ r ∈ mergeLoop fuel last sources, k < r.1 := by
  induction fuel generalizing last sources with
  | zero => exact ⟨List.Pairwise.nil, fun _ _ _ hr => (List.not_mem_nil _ hr).elim⟩
  | succ fuel ih =>
    simp only [mergeLoop]
    split
    · exact ⟨List.Pairwise.nil, fun _ _ _ hr => (List.not_mem_nil _ hr).elim⟩
    · rename_i row rest hpop
      obtain ⟨restSorted, least⟩ := popLeast_least sorted hpop
      have perm := popLeast_perm hpop
      have restAbove : ∀ r ∈ rest.flatten, row.1 ≤ r.1 := fun r hr =>
        least r (perm.subset (List.mem_cons_of_mem _ hr))
      split
      · rename_i again
        exact ih restSorted fun k hk r hr =>
          Option.some.inj (hk.symm.trans again) ▸ restAbove r hr
      · rename_i fresh
        obtain ⟨tailSorted, tailAbove⟩ := ih restSorted fun k hk r hr =>
          Option.some.inj hk ▸ restAbove r hr
        refine ⟨List.Pairwise.cons (tailAbove row.1 rfl) tailSorted, fun k hk r hr => ?_⟩
        have below : k < row.1 := lt_of_le_of_ne
          (above k hk row (perm.subset (List.mem_cons_self _ _))) fun heq =>
            fresh (hk.trans (congrArg some heq))
        rcases List.mem_cons.mp hr with rfl | hr
        exacts [below, below.trans (tailAbove row.1 rfl r hr)]

private theorem mergeStreams_sorted {tables : FileId → List (Row K V)} {version : Version K}
    {streams : List (ScanStream K)}
    (sorted : ∀ stream ∈ streams, Sorted (stream.rows tables version)) :
    Sorted (mergeStreams tables version streams) :=
  (mergeLoop_sorted _ (List.forall_mem_map.mpr sorted) fun _ h => by cases h).1

private theorem rows_sorted {tables : FileId → List (Row K V)} {version : Version K}
    (tablesSorted : ∀ gen, Sorted (tables gen))
    (levelsSorted : ∀ l, Sorted ((version.levelSlice l).flatMap fun scope => tables scope.gen))
    (stream : ScanStream K) : Sorted (stream.rows tables version) := by
  cases stream with
  | ssTable gen _ => exact tablesSorted gen
  | level l start finish lower upper _ =>
    simp only [ScanStream.rows, ← List.filter_flatMap]
    refine List.Pairwise.filter _ (List.Pairwise.sublist (List.IsInfix.sublist ?_) (levelsSorted l))
    set slice := version.levelSlice l
    refine ⟨(slice.take start).flatMap fun scope => tables scope.gen,
      ((slice.drop start).drop (finish + 1 - start)).flatMap fun scope => tables scope.gen, ?_⟩
    rw [← List.flatMap_append, ← List.flatMap_append, List.append_assoc, List.take_append_drop,
      List.take_append_drop]

/-! ## Runs on concrete tables -/

def keyRows (keys : List Nat) : List (Row Nat Nat) := keys.map fun k => (⟨k, EPOCH⟩, some k)

def tableIo (tables : FileId → List (Row Nat Nat)) (version : Version Nat) : MajorIo Nat Nat :=
  ⟨fun _ _ => none, fun streams => .ok (mergeStreams tables version streams),
    ⟨fun _ _ => none⟩, List.length⟩

def insideVersion : Version Nat :=
  .ofLevels [[⟨2, 3, 1, none⟩, ⟨8, 9, 2, none⟩],
    [⟨1, 4, 3, none⟩, ⟨5, 6, 4, none⟩, ⟨7, 10, 5, none⟩]]

def insideTables : FileId → List (Row Nat Nat)
  | 1 => keyRows [2, 3]
  | 2 => keyRows [8, 9]
  | 3 => keyRows [1, 4]
  | 4 => keyRows [5, 6]
  | 5 => keyRows [7, 10]
  | _ => []

private theorem insideTables_sorted (gen : FileId) : Sorted (insideTables gen) := by
  unfold insideTables
  split <;> decide

private theorem insideLevels_sorted (l : Nat) :
    Sorted ((insideVersion.levelSlice l).flatMap fun scope => insideTables scope.gen) := by
  rcases l with _ | _ | l
  · decide
  · decide
  · exact List.Pairwise.nil

/-- With level 0 over its threshold and level 1 within its own, the round at level 0
selects [1, 4] and [7, 10] of level 1 but not [5, 6] between them, although its level
stream reads that table; it writes [1, 10] to level 1, which after the edits also keeps
[5, 6]. -/
theorem majorCompaction_keeps_scope_inside_window (n : Nat) :
    (∀ l, WellFormed (insideVersion.levelSlice l)) ∧
      (∀ l, 1 ≤ l → SortedDisjoint (insideVersion.levelSlice l)) ∧
      (∀ streams, Sorted (mergeStreams insideTables insideVersion streams)) ∧
      ∃ st, majorCompaction (tableIo insideTables insideVersion) (testOption 1 10) (n + 3)
          insideVersion 2 9 6 = .ok st ∧
        st.edits = [.add 1 ⟨1, 10, 6, none⟩, .remove 0 1, .remove 0 2, .remove 1 3, .remove 1 5] ∧
        (insideVersion.applyEdits st.edits).levelSlice 1 = [⟨1, 10, 6, none⟩, ⟨5, 6, 4, none⟩] ∧
        ¬ ((insideVersion.applyEdits st.edits).levelSlice 1).Pairwise Scope.Disjoint := by
  refine ⟨Version.forall_ofLevels (by decide) (by decide),
    fun l _ => Version.forall_ofLevels (by decide) (by decide) l,
    fun _ => mergeStreams_sorted fun stream _ => rows_sorted insideTables_sorted insideLevels_sorted
      stream, ?_⟩
  rw [show n + 3 = 1 + 2 + n by omega, majorCompaction_add_levels 1 n]
  · exact ⟨_, rfl, rfl, rfl, by decide⟩
  · rfl

def stackedVersion : Version Nat :=
  .ofLevels [[⟨1, 2, 1, none⟩, ⟨3, 4, 2, none⟩], [⟨1, 2, 3, none⟩, ⟨3, 4, 4, none⟩]]

def stackedTables : FileId → List (Row Nat Nat)
  | 1 => keyRows [1, 2]
  | 2 => keyRows [3, 4]
  | 3 => keyRows [1, 2]
  | 4 => keyRows [3, 4]
  | _ => []

theorem majorRound_removes_only_scanned_of_stacked :
    ∃ streams st', majorRound (tableIo stackedTables stackedVersion) (testOption 1 1)
        stackedVersion 0 ⟨1, 4, [], [], [], 5⟩ = .ok (streams, st') ∧
      ∃ emitted, st'.edits = [] ++ emitted ∧
        ∀ l gen, VersionEdit.remove l gen ∈ emitted →
          ∃ s ∈ stackedVersion.levelSlice l, s.gen = gen ∧ ScannedBy stackedVersion streams l s := by
  obtain ⟨streams, st', round⟩ : ∃ streams st', majorRound (tableIo stackedTables stackedVersion)
      (testOption 1 1) stackedVersion 0 ⟨1, 4, [], [], [], 5⟩ = .ok (streams, st') :=
    ⟨_, _, rfl⟩
  exact ⟨streams, st', round, majorRound_removes_only_scanned
    (fun l _ => Version.forall_ofLevels (by decide) (by decide) l)
    (fun l _ => Version.forall_ofLevels (by decide) (by decide) l) round⟩

/-- With levels 0 and 1 both over their thresholds, the round at level 1 reads the
version the call was given, in which the scopes of level 1 that the round at level 0
has just removed are still listed: it selects them again, and the call removes them
twice. -/
theorem majorCompaction_removes_twice (n : Nat) :
    (∀ l, 1 ≤ l → SortedDisjoint (stackedVersion.levelSlice l)) ∧
      ∃ st, majorCompaction (tableIo stackedTables stackedVersion) (testOption 1 1) (n + 4)
          stackedVersion 1 4 5 = .ok st ∧
        st.edits = [.add 1 ⟨1, 4, 5, none⟩, .remove 0 1, .remove 0 2, .remove 1 3, .remove 1 4,
          .add 2 ⟨1, 4, 6, none⟩, .remove 1 3, .remove 1 4] ∧
        (∀ s ∈ (stackedVersion.applyEdits (st.edits.take 6)).levelSlice 1, s.gen ≠ 3) ∧
        st.deleteGens = [(1, 0), (2, 0), (3, 1), (4, 1), (3, 1), (4, 1)] ∧
        ¬ st.deleteGens.Nodup := by
  refine ⟨fun l _ => Version.forall_ofLevels (by decide) (by decide) l, ?_⟩
  rw [show n + 4 = 2 + 2 + n by omega, majorCompaction_add_levels 2 n]
  · exact ⟨_, rfl, rfl, by decide, rfl, by decide⟩
  · rfl

def degenerateVersion : Version Nat :=
  .ofLevels [[⟨10, 15, 1, none⟩, ⟨16, 20, 2, none⟩], [⟨1, 2, 3, none⟩, ⟨5, 1, 4, none⟩]]

def degenerateTables : FileId → List (Row Nat Nat)
  | 1 => keyRows [10, 15]
  | 2 => keyRows [16, 20]
  | 3 => keyRows [1, 2]
  | _ => []

/-- On a level with an empty scope last, the fallback of `this_level_scopes` selects
[1, 2] and the empty scope; `full_scope` bounds the level stream by the first `min` and
the last `max`, [1, 1], so the row of key 2 is not read, and the round removes its table. -/
theorem majorRound_removes_unscanned_scope :
    (∀ l, 1 ≤ l → SortedDisjoint (degenerateVersion.levelSlice l)) ∧
      ∃ streams0 st1 streams st2,
        majorRound (tableIo degenerateTables degenerateVersion) (testOption 1 1)
            degenerateVersion 0 ⟨10, 20, [], [], [], 5⟩ = .ok (streams0, st1) ∧
        majorRound (tableIo degenerateTables degenerateVersion) (testOption 1 1)
            degenerateVersion 1 st1 = .ok (streams, st2) ∧
        majorCompaction (tableIo degenerateTables degenerateVersion) (testOption 1 1) 7
            degenerateVersion 10 20 5 = .ok st2 ∧
        streams = [.level 1 0 1 1 1 "db"] ∧
        VersionEdit.remove 1 3 ∈ st2.edits.drop st1.edits.length ∧
        (∀ s ∈ degenerateVersion.levelSlice 1, s.gen = 3 →
          ¬ ScannedBy degenerateVersion [.level 1 0 1 1 1 "db"] 1 s) ∧
        (⟨2, EPOCH⟩, some 2) ∈ degenerateTables 3 ∧
        ∀ f ∈ st2.files, ∀ r ∈ f.rows, r.1.value ≠ 2 := by
  refine ⟨fun l _ => Version.forall_ofLevels (by decide) (by decide) l,
    _, _, _, _, rfl, rfl, rfl, rfl, by decide, ?_, by decide, by decide⟩
  -- the stream's upper bound is 1, below the `max` 2 of the scope of gen 3
  intro s hs hgen scanned
  rw [ScannedBy, if_neg one_ne_zero] at scanned
  obtain ⟨_, _, _, upper, _, _, hmem, -, -, -, -, hupper⟩ := scanned
  obtain ⟨-, -, -, -, rfl, -⟩ := ScanStream.level.inj (List.mem_singleton.mp hmem)
  have wide : ∀ s ∈ degenerateVersion.levelSlice 1, s.gen = 3 → 2 ≤ s.max := by decide
  exact absurd ((wide s hs hgen).trans hupper) (by decide)

def pathsOption : DbOption := { testOption 1 10 with levelPaths := [some "l0", some "l1"] }

def pathsVersion : Version Nat :=
  .ofLevels [[⟨1, 4, 1, none⟩, ⟨5, 9, 2, none⟩], [⟨0, 2, 3, none⟩, ⟨10, 12, 4, none⟩]]

def pathsTables : FileId → List (Row Nat Nat)
  | 1 => keyRows [1, 4]
  | 2 => keyRows [5, 9]
  | 3 => keyRows [0, 2]
  | 4 => keyRows [10, 12]
  | _ => []

/-- With level 0 on "l0" and level 1 on "l1", the one round of the call opens the
level-0 tables through "l0" and writes its table through "l1", but its level stream over
level 1 reads through "l0" too. -/
theorem majorCompaction_reads_next_level_through_level_fs (n : Nat) :
    ∃ streams st,
      majorRound (tableIo pathsTables pathsVersion) pathsOption pathsVersion 0
          ⟨3, 8, [], [], [], 5⟩ = .ok (streams, st) ∧
        majorCompaction (tableIo pathsTables pathsVersion) pathsOption (n + 3) pathsVersion 3 8 5 =
          .ok st ∧
        streams = [.ssTable 1 "l0", .ssTable 2 "l0", .level 1 0 1 0 2 "l0"] ∧
        pathsOption.levelFsPath 1 = some "l1" ∧ st.files.map (·.fs) = ["l1"] := by
  rw [show n + 3 = 1 + 2 + n by omega, majorCompaction_add_levels 1 n]
  · exact ⟨_, _, rfl, rfl, rfl, rfl, rfl⟩
  · rfl

end Tonbo.Compaction.Major
