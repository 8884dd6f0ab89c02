/- The tables `build_tables` rolls the merged stream into, against the spec's account.
   source: src/src/compaction/mod.rs (`Compactor::build_tables`, `Compactor::build_table`)
   digest: pushed row by row, the merged stream is cut after the first row at which the
           builder's written size reaches `max_sst_file_size`, and what is left at the end
           is one more table; each table's scope runs from its first key to its last. So
           the scopes follow one another in key order, and are disjoint when the merged
           keys strictly ascend; a cut can fall between two versions of one key, whose
           tables then share it. -/

import Tonbo.Compaction.Major

set_option autoImplicit false
set_option relaxedAutoImplicit false

namespace Tonbo.Compaction.BuildTables

open Tonbo.Key Tonbo.Skiplist Tonbo.Levels Tonbo.Inmem.ImmutableTable Tonbo.Compaction.Minor
  Tonbo.Compaction.Select Tonbo.Compaction.Major

variable {K V : Type}

/-! ## The spec's account -/

abbrev Chunk (K V : Type) := Row K V × List (Row K V)

def chunkRows (c : Chunk K V) : List (Row K V) := c.1 :: c.2

/-- The spec's roll: the table of a chunk written under the next free id, and its
`Add{level, scope}` with `min` the key of the chunk's first row and `max` of its last. -/
def writeChunk (built : Built K V) (level : Nat) (fs : String) (c : Chunk K V) : Built K V :=
  ⟨built.edits ++ [.add level ⟨c.1.1.value, (c.2.getLastD c.1).1.value, built.nextGen, none⟩],
    built.files ++ [⟨built.nextGen, level, chunkRows c, fs⟩], built.nextGen + 1⟩

/-- The spec's account of `build_tables` after the merge: one table per chunk, in order; a
table write that fails stops it. -/
def writeChunks (io : TableIo) (level : Nat) (fs : String) :
    List (Chunk K V) → Built K V → Except CompactionError (Built K V)
  | [], built => .ok built
  | c :: rest, built =>
    match io.writeFails level built.nextGen with
    | some e => .error e
    | none => writeChunks io level fs rest (writeChunk built level fs c)

/-- Where the spec cuts the stream: every proper prefix of a chunk is below the size
limit, and every chunk but the last reaches it. -/
def RolledAt (size : List (Row K V) → Nat) (limit : Nat) : List (Chunk K V) → Prop
  | [] => True
  | c :: rest => (∀ k, 0 < k → k ≤ c.2.length → size ((chunkRows c).take k) < limit) ∧
      (rest ≠ [] → limit ≤ size (chunkRows c)) ∧ RolledAt size limit rest

private theorem writeChunks_error {io : TableIo} {level : Nat} {fs : String} {e : CompactionError}
    (chunks : List (Chunk K V)) (built : Built K V)
    (h : writeChunks io level fs chunks built = .error e) :
    ∃ gen, io.writeFails level gen = some e := by
  induction chunks generalizing built with
  | nil => cases h
  | cons c rest ih =>
    unfold writeChunks at h
    split at h
    · rename_i fails
      cases h; exact ⟨_, fails⟩
    · exact ih _ h

private theorem writeChunks_cons_ok {io : TableIo} {level : Nat} {fs : String} {c : Chunk K V}
    {rest : List (Chunk K V)} {built built' : Built K V}
    (h : writeChunks io level fs (c :: rest) built = .ok built') :
    writeChunks io level fs rest (writeChunk built level fs c) = .ok built' := by
  unfold writeChunks at h
  split at h
  · cases h
  · exact h

private theorem writeChunks_edits {io : TableIo} {level : Nat} {fs : String}
    (chunks : List (Chunk K V)) (built : Built K V) {built' : Built K V}
    (h : writeChunks io level fs chunks built = .ok built') :
    ∃ edits, built'.edits = built.edits ++ edits := by
  induction chunks generalizing built with
  | nil => cases h; exact ⟨[], by simp⟩
  | cons c rest ih =>
    obtain ⟨edits, hedits⟩ := ih _ (writeChunks_cons_ok h)
    exact ⟨_, by rw [hedits, writeChunk, List.append_assoc]⟩

private theorem rolledAt_first {size : List (Row K V) → Nat} {limit : Nat} {c : Chunk K V}
    {rest : List (Chunk K V)} {front tail : List (Row K V)} {r : Row K V}
    (rolled : RolledAt size limit (c :: rest))
    (flat : chunkRows c ++ (rest.map chunkRows).flatten = front ++ r :: tail)
    (below : ∀ k, 0 < k → k ≤ front.length → size (front.take k) < limit)
    (reaches : limit ≤ size (front ++ [r])) :
    chunkRows c = front ++ [r] ∧ (rest.map chunkRows).flatten = tail := by
  obtain ⟨prefixes, full, -⟩ := rolled
  have taken : ∀ n, n ≤ (chunkRows c).length → (chunkRows c).take n = (front ++ r :: tail).take n :=
    fun n hn => by rw [← flat, List.take_append_of_le_length hn]
  have whole : (front ++ r :: tail).take (front.length + 1) = front ++ [r] := by
    rw [List.take_append]; rfl
  have len : (chunkRows c).length = front.length + 1 := by
    rcases lt_trichotomy (chunkRows c).length (front.length + 1) with lt | eq | gt
    · -- a shorter first chunk ends below the limit, though rows follow it
      have early := taken _ le_rfl
      rw [List.take_length, List.take_append_of_le_length (by omega)] at early
      have rows : (rest.map chunkRows).flatten ≠ [] := fun empty => by
        have := congrArg List.length flat
        simp only [empty, List.append_nil, List.length_append, List.length_cons] at this
        omega
      have := full fun hnil => rows (by simp [hnil])
      rw [early] at this
      exact absurd this (not_le.mpr (below _ (Nat.succ_pos _) (by omega)))
    · exact eq
    · have := prefixes (front.length + 1) (by omega) (by simp [chunkRows] at gt; omega)
      rw [taken _ gt.le, whole] at this
      omega
  exact List.append_inj (flat.trans (by simp)) (by simpa using len)

/-! ## The loop of the source rolls as the spec says -/

def pendingBuilder (cur : List (Row K V)) : Builder K V :=
  ⟨cur, cur.head?.map (·.1.value), cur.getLast?.map (·.1.value)⟩

@[simp] theorem pendingBuilder_rows (cur : List (Row K V)) : (pendingBuilder cur).rows = cur := rfl

theorem push_pendingBuilder (cur : List (Row K V)) (e : Row K V) :
    (⟨(pendingBuilder cur).rows ++ [e], if (pendingBuilder cur).min.isNone then some e.1.value
        else (pendingBuilder cur).min, some e.1.value⟩ : Builder K V) =
      pendingBuilder (cur ++ [e]) := by
  simp only [pendingBuilder, List.getLast?_concat, Option.map_some']
  cases cur <;> simp

theorem buildTable_pendingBuilder (io : TableIo) (level : Nat) (fs : String) (c : Chunk K V)
    (built : Built K V) :
    buildTable io level fs (pendingBuilder (chunkRows c)) built =
      match io.writeFails level built.nextGen with
      | some e => .error e
      | none => .ok (pendingBuilder [], writeChunk built level fs c) := by
  unfold buildTable
  cases io.writeFails level built.nextGen <;>
    simp [pendingBuilder, chunkRows, List.getLast?_cons, writeChunk, List.getLastD_eq_getLast?]

section Rolling

variable {io : MajorIo K V} {option : DbOption}
  (positive : ∀ rows : List (Row K V), rows ≠ [] → 0 < io.writtenSize rows)
  (empty : io.writtenSize [] = 0)

include positive empty in
private theorem buildTablesLoop_rolls (level : Nat) (fs : String) (entries cur : List (Row K V))
    (built : Built K V)
    (below : ∀ k, 0 < k → k ≤ cur.length → io.writtenSize (cur.take k) < option.maxSstFileSize) :
    ∃ chunks : List (Chunk K V), (chunks.map chunkRows).flatten = cur ++ entries ∧
      RolledAt io.writtenSize option.maxSstFileSize chunks ∧
      buildTablesLoop io option level fs entries (pendingBuilder cur) built =
        writeChunks io.tables level fs chunks built := by
  induction entries generalizing cur built with
  | nil =>
    rcases cur with _ | ⟨p, ps⟩
    · refine ⟨[], rfl, trivial, ?_⟩
      simp [buildTablesLoop, pendingBuilder, empty, writeChunks]
    · refine ⟨[(p, ps)], by simp [chunkRows], ⟨fun k hk hk' => below k hk (by simp at hk' ⊢; omega),
        fun h => absurd rfl h, trivial⟩, ?_⟩
      have written : io.writtenSize (pendingBuilder (p :: ps)).rows > 0 :=
        positive _ (List.cons_ne_nil p ps)
      rw [buildTablesLoop, if_pos written]
      show (buildTable io.tables level fs (pendingBuilder (chunkRows (p, ps))) built).map
        Prod.snd = _
      rw [buildTable_pendingBuilder]
      unfold writeChunks
      cases io.tables.writeFails level built.nextGen <;> rfl
  | cons e rest ih =>
    obtain ⟨p, ps, hp⟩ := List.exists_cons_of_ne_nil
      (List.append_ne_nil_of_right_ne_nil cur (List.cons_ne_nil e []))
    have prefixes : ∀ k, 0 < k → k ≤ cur.length →
        io.writtenSize ((cur ++ [e]).take k) < option.maxSstFileSize := fun k hk hk' => by
      rw [List.take_append_of_le_length hk']; exact below k hk hk'
    rw [buildTablesLoop]
    dsimp only
    rw [push_pendingBuilder, pendingBuilder_rows]
    by_cases roll : io.writtenSize (cur ++ [e]) ≥ option.maxSstFileSize
    · -- the row completes a chunk: it is written, and the loop goes on from an empty builder
      obtain ⟨chunks, hflat, hrolled, heq⟩ :=
        ih [] (writeChunk built level fs (p, ps)) fun k hk hk' => absurd hk' (by simp; omega)
      refine ⟨(p, ps) :: chunks, ?_, ⟨fun k hk hk' => ?_, fun _ => ?_, hrolled⟩, ?_⟩
      · rw [List.map_cons, List.flatten_cons, hflat, chunkRows, ← hp]; simp
      · rw [chunkRows, ← hp]
        have := congrArg List.length hp
        simp only [List.length_append, List.length_cons, List.length_nil] at this hk'
        exact prefixes k hk (by omega)
      · rwa [chunkRows, ← hp]
      · rw [if_pos roll, hp, show p :: ps = chunkRows (p, ps) from rfl, buildTable_pendingBuilder]
        unfold writeChunks
        cases io.tables.writeFails level built.nextGen
        · exact heq
        · rfl
    · -- the row joins the pending chunk
      obtain ⟨chunks, hflat, hrolled, heq⟩ := ih (cur ++ [e]) built fun k hk hk' => by
        rcases Nat.lt_or_ge k (cur.length + 1) with lt | ge
        · exact prefixes k hk (by omega)
        · rw [List.take_of_length_le (by simp; omega)]; exact lt_of_not_le roll
      refine ⟨chunks, by simp [hflat], hrolled, ?_⟩
      rw [if_neg roll]
      exact heq

include positive empty in
/-- After a successful merge, `build_tables` writes exactly the spec's roll of the merged
stream: non-empty chunks that concatenate to it in order, each cut after its first row at
which the written size reaches `max_sst_file_size`, or at the end of the stream, and each
scoped by the keys of its first and last rows. It fails only where a table write does, so
never with `EmptyLevel` for want of a `min` or a `max`. -/
theorem buildTables_rolls_chunks {level : Nat} {streams : List (ScanStream K)} {fs : String}
    {gen : FileId} {entries : List (Row K V)} (merged : io.merge streams = .ok entries) :
    ∃ chunks : List (Chunk K V), (chunks.map chunkRows).flatten = entries ∧
      RolledAt io.writtenSize option.maxSstFileSize chunks ∧
      buildTables io option level streams fs gen =
        writeChunks io.tables level fs chunks ⟨[], [], gen⟩ ∧
      ∀ e, buildTables io option level streams fs gen = .error e →
        ∃ g, io.tables.writeFails level g = some e := by
  obtain ⟨chunks, hflat, hrolled, heq⟩ := buildTablesLoop_rolls positive empty level fs entries []
    ⟨[], [], gen⟩ fun k hk hk' => absurd hk' (by simp; omega)
  have run : buildTables io option level streams fs gen =
      writeChunks io.tables level fs chunks ⟨[], [], gen⟩ := by
    rw [buildTables, merged]; exact heq
  exact ⟨chunks, hflat, hrolled, run, fun e h => writeChunks_error chunks _ (run ▸ h)⟩

end Rolling

def threeRowsIo : MajorIo Nat Nat :=
  ⟨fun _ _ => none, fun _ => .ok (keyRows [1, 2, 3]), ⟨fun _ _ => none⟩, List.length⟩

def pairOption : DbOption := { testOption 1 1 with maxSstFileSize := 2 }

theorem buildTables_rolls_chunks_of_three_rows :
    (∀ rows : List (Row Nat Nat), rows ≠ [] → 0 < threeRowsIo.writtenSize rows) ∧
      threeRowsIo.writtenSize [] = 0 ∧ threeRowsIo.merge [] = .ok (keyRows [1, 2, 3]) ∧
      ∃ chunks : List (Chunk Nat Nat), (chunks.map chunkRows).flatten = keyRows [1, 2, 3] ∧
        RolledAt threeRowsIo.writtenSize pairOption.maxSstFileSize chunks ∧
        buildTables threeRowsIo pairOption 1 [] "db" 5 =
          writeChunks threeRowsIo.tables 1 "db" chunks ⟨[], [], 5⟩ ∧
        ∀ e, buildTables threeRowsIo pairOption 1 [] "db" 5 = .error e →
          ∃ g, threeRowsIo.tables.writeFails 1 g = some e :=
  ⟨fun _ h => List.length_pos.mpr h, rfl, rfl,
    buildTables_rolls_chunks (fun _ h => List.length_pos.mpr h) rfl rfl⟩

/-! ## The order of the tables written -/

section Order

variable [LinearOrder K] {io : MajorIo K V} {option : DbOption} (r : K → K → Prop)
  (hr : ∀ a b, r a b → a ≤ b)

/-- Scopes as `build_tables` pushes them: each a non-empty interval, and the last key of
each in relation `r` with the first key of every later one. -/
def Stacked (scopes : List (Scope K)) : Prop :=
  WellFormed scopes ∧ scopes.Pairwise fun a b => r a.max b.min

include hr in
theorem Stacked.push {adds : List (Scope K)} {p : Row K V} {ps : List (Row K V)} (gen : FileId)
    (stacked : Stacked r adds) (keys : ((p :: ps).map (·.1.value)).Pairwise r)
    (before : ∀ s ∈ adds, r s.max p.1.value) :
    Stacked r (adds ++ [⟨p.1.value, (ps.getLastD p).1.value, gen, none⟩]) := by
  refine ⟨fun s hs => ?_, List.pairwise_append.mpr ⟨stacked.2, List.pairwise_singleton _ _,
    fun a ha b hb => by rw [List.mem_singleton.mp hb]; exact before a ha⟩⟩
  rcases List.mem_append.mp hs with hs | hs
  · exact stacked.1 s hs
  · rw [List.mem_singleton.mp hs]
    rcases List.mem_cons.mp (List.getLastD_mem_cons ps p) with last | last
    · rw [last]
    · exact hr _ _ ((List.pairwise_cons.mp (List.pairwise_map.mp keys)).1 _ last)

include hr in
private theorem buildTablesLoop_stacked (level : Nat) (fs : String) (entries cur : List (Row K V))
    (built : Built K V) {built' : Built K V} (adds : List (Scope K))
    (hedits : built.edits = adds.map (.add level)) (stacked : Stacked r adds)
    (keys : ((cur ++ entries).map (·.1.value)).Pairwise r)
    (before : ∀ s ∈ adds, ∀ row ∈ cur ++ entries, r s.max row.1.value)
    (h : buildTablesLoop io option level fs entries (pendingBuilder cur) built = .ok built') :
    ∃ adds', built'.edits = adds'.map (.add level) ∧ Stacked r adds' := by
  induction entries generalizing cur built adds with
  | nil =>
    rw [buildTablesLoop] at h
    split at h
    · rcases cur with _ | ⟨p, ps⟩
      · cases hw : io.tables.writeFails level built.nextGen <;>
          simp [buildTable, pendingBuilder, hw, Except.map] at h
      · rw [show p :: ps = chunkRows (p, ps) from rfl, buildTable_pendingBuilder] at h
        cases hw : io.tables.writeFails level built.nextGen
        · simp only [hw, Except.map] at h
          cases h
          exact ⟨adds ++ [⟨p.1.value, (ps.getLastD p).1.value, built.nextGen, none⟩],
            by simp [writeChunk, hedits], stacked.push r hr _ (by simpa using keys)
            fun s hs => before s hs p (by simp)⟩
        · simp only [hw, Except.map] at h
          cases h
    · cases h; exact ⟨adds, hedits, stacked⟩
  | cons e rest ih =>
    rw [buildTablesLoop] at h
    dsimp only at h
    rw [push_pendingBuilder, pendingBuilder_rows] at h
    have keys' : (((cur ++ [e]) ++ rest).map (·.1.value)).Pairwise r := by simpa using keys
    have before' : ∀ s ∈ adds, ∀ row ∈ (cur ++ [e]) ++ rest, r s.max row.1.value :=
      fun s hs row hrow => before s hs row (by simpa using hrow)
    split at h
    · -- the row completes a table: its scope stacks on the others, and the loop goes on
      -- from an empty builder
      obtain ⟨p, ps, hp⟩ := List.exists_cons_of_ne_nil
        (List.append_ne_nil_of_right_ne_nil cur (List.cons_ne_nil e []))
      rw [hp] at h keys' before'
      rw [show p :: ps = chunkRows (p, ps) from rfl, buildTable_pendingBuilder] at h
      cases hw : io.tables.writeFails level built.nextGen
      · simp only [hw] at h
        rw [List.map_append, List.pairwise_append] at keys'
        refine ih [] _ (adds ++ [⟨p.1.value, (ps.getLastD p).1.value, built.nextGen, none⟩])
          (by simp [writeChunk, hedits])
          (stacked.push r hr _ keys'.1 fun s hs => before' s hs p (by simp)) keys'.2.1
          (fun s hs row hrow => ?_) h
        rcases List.mem_append.mp hs with hs | hs
        · exact before' s hs row (List.mem_append_right _ hrow)
        · rw [List.mem_singleton.mp hs]
          exact keys'.2.2 _ (List.mem_map_of_mem _ (List.getLastD_mem_cons ps p)) _
            (List.mem_map_of_mem _ hrow)
      · simp only [hw] at h
        cases h
    · -- the row joins the pending table
      exact ih (cur ++ [e]) built adds hedits stacked keys' before' h

private theorem keys_le_of_sorted {rows : List (Row K V)} (sorted : Sorted rows) :
    (rows.map (·.1.value)).Pairwise (· ≤ ·) :=
  List.pairwise_map.mpr (sorted.imp fun lt => by
    rcases Timestamped.lt_def.mp lt with lt | ⟨eq, -⟩
    exacts [lt.le, eq.le])

/-- `build_tables` writes tables whose scopes are each a non-empty interval and follow one
another in key order, each ending at or before the first key of every later one; when the
keys of the merged stream strictly ascend, they have the layout the spec requires of a
level past 0: sorted by `min` and pairwise disjoint. -/
theorem buildTables_scopes_ordered {level : Nat} {streams : List (ScanStream K)} {fs : String}
    {gen : FileId} {entries : List (Row K V)} {built : Built K V}
    (merged : io.merge streams = .ok entries) (sorted : Sorted entries)
    (h : buildTables io option level streams fs gen = .ok built) :
    ∃ scopes : List (Scope K), built.edits = scopes.map (.add level) ∧ WellFormed scopes ∧
      scopes.Pairwise (fun a b => a.max ≤ b.min) ∧
      ((entries.map (·.1.value)).Pairwise (· < ·) → SortedDisjoint scopes) := by
  rw [buildTables, merged] at h
  have loop := fun r hr keys => buildTablesLoop_stacked r hr level fs entries [] ⟨[], [], gen⟩ []
    rfl ⟨fun _ hs => (List.not_mem_nil _ hs).elim, List.Pairwise.nil⟩ keys
    (fun _ hs => (List.not_mem_nil _ hs).elim) h
  obtain ⟨scopes, hedits, wf, weak⟩ := loop (· ≤ ·) (fun _ _ => id) (keys_le_of_sorted sorted)
  refine ⟨scopes, hedits, wf, weak, fun strict => ?_⟩
  obtain ⟨scopes', hedits', -, ascending⟩ := loop (· < ·) (fun _ _ => le_of_lt) strict
  have same : scopes' = scopes :=
    List.map_injective_iff.mpr (fun _ _ h => VersionEdit.add.inj h |>.2) (hedits'.symm.trans hedits)
  rw [← same] at wf ⊢
  exact ascending.imp_of_mem fun ha _ lt => ⟨(wf _ ha).trans lt.le, .inl lt⟩

/-- The roll cuts where the written size first reaches `max_sst_file_size`, whatever keys
meet there: when the row that completes the first table and the row after it are two
versions of one key, of a sorted merge, the scopes of the first two tables both contain
that key. -/
theorem buildTables_splits_versions {level : Nat} {streams : List (ScanStream K)} {fs : String}
    {gen : FileId} {front back : List (Row K V)} {r₁ r₂ : Row K V} {built : Built K V}
    (positive : ∀ rows : List (Row K V), rows ≠ [] → 0 < io.writtenSize rows)
    (empty : io.writtenSize [] = 0)
    (merged : io.merge streams = .ok (front ++ r₁ :: r₂ :: back))
    (sorted : Sorted (front ++ r₁ :: r₂ :: back))
    (below : ∀ k, 0 < k → k ≤ front.length → io.writtenSize (front.take k) < option.maxSstFileSize)
    (reaches : option.maxSstFileSize ≤ io.writtenSize (front ++ [r₁]))
    (same : r₁.1.value = r₂.1.value)
    (h : buildTables io option level streams fs gen = .ok built) :
    ∃ first second rest, built.edits = .add level first :: .add level second :: rest ∧
      first.contains r₁.1.value ∧ second.contains r₁.1.value := by
  obtain ⟨chunks, hflat, hrolled, heq⟩ := @buildTablesLoop_rolls K V io option positive empty level
    fs (front ++ r₁ :: r₂ :: back) [] ⟨[], [], gen⟩ fun k hk hk' => absurd hk' (by simp; omega)
  replace h : writeChunks io.tables level fs chunks ⟨[], [], gen⟩ = .ok built := by
    rw [← heq]; rw [buildTables, merged] at h; exact h
  -- the merged keys ascend around the two versions
  have keys := List.pairwise_append.mp (List.pairwise_map.mp (keys_le_of_sorted sorted))
  have le_r₁ : ∀ x ∈ front ++ [r₁], x.1.value ≤ r₁.1.value := fun x hx => by
    rcases List.mem_append.mp hx with hx | hx
    · exact keys.2.2 x hx r₁ (List.mem_cons_self _ _)
    · rw [List.mem_singleton.mp hx]
  have r₂_le : ∀ x ∈ r₂ :: back, r₂.1.value ≤ x.1.value := fun x hx => by
    rcases List.mem_cons.mp hx with rfl | hx
    exacts [le_rfl, (List.pairwise_cons.mp (List.pairwise_cons.mp keys.2.1).2).1 x hx]
  -- the first chunk ends with the first version, the second begins with the other
  rcases chunks with _ | ⟨c, rest⟩
  · simp at hflat
  obtain ⟨first, tail⟩ := rolledAt_first hrolled (by simpa using hflat) below reaches
  rcases rest with _ | ⟨c', rest⟩
  · simp at tail
  simp only [List.map_cons, List.flatten_cons, chunkRows, List.cons_append, List.cons.injEq] at tail
  have last : c.2.getLastD c.1 = r₁ := by
    simpa [chunkRows, List.getLast?_cons] using congrArg List.getLast? first
  obtain ⟨edits, hedits⟩ := writeChunks_edits _ _ (writeChunks_cons_ok (writeChunks_cons_ok h))
  refine ⟨⟨c.1.1.value, (c.2.getLastD c.1).1.value, gen, none⟩,
    ⟨c'.1.1.value, (c'.2.getLastD c'.1).1.value, gen + 1, none⟩, edits,
    by rw [hedits]; rfl, ?_, ?_⟩
  · simp only [Scope.contains, last, Bool.and_eq_true, decide_eq_true_eq]
    exact ⟨le_r₁ c.1 (first ▸ List.mem_cons_self _ _), le_rfl⟩
  · simp only [Scope.contains, tail.1, same, Bool.and_eq_true, decide_eq_true_eq]
    refine ⟨le_rfl, r₂_le _ ?_⟩
    rcases List.mem_cons.mp (List.getLastD_mem_cons c'.2 r₂) with hlast | hlast
    · rw [hlast]; exact List.mem_cons_self _ _
    · exact List.mem_cons_of_mem _ (tail.2 ▸ List.mem_append_left _ hlast)

end Order

theorem buildTables_scopes_ordered_of_three_rows :
    threeRowsIo.merge [] = .ok (keyRows [1, 2, 3]) ∧ Sorted (keyRows [1, 2, 3]) ∧
      ∃ built, buildTables threeRowsIo pairOption 1 [] "db" 5 = .ok built ∧
        ∃ scopes : List (Scope Nat), built.edits = scopes.map (.add 1) ∧ WellFormed scopes ∧
          scopes.Pairwise (fun a b => a.max ≤ b.min) ∧
          (((keyRows [1, 2, 3]).map (·.1.value)).Pairwise (· < ·) → SortedDisjoint scopes) := by
  have sorted : Sorted (keyRows [1, 2, 3]) := by unfold Sorted; decide
  obtain ⟨built, h⟩ : ∃ built, buildTables threeRowsIo pairOption 1 [] "db" 5 = .ok built :=
    ⟨_, rfl⟩
  exact ⟨rfl, sorted, built, h, buildTables_scopes_ordered rfl sorted h⟩

def twoVersionsIo : MajorIo Nat Nat :=
  ⟨fun _ _ => none, fun _ => .ok ([(⟨1, EPOCH⟩, some 1)] ++ (⟨2, ⟨1⟩⟩, some 2) :: (⟨2, EPOCH⟩, some 2) ::
    [(⟨3, EPOCH⟩, some 3)]), ⟨fun _ _ => none⟩, List.length⟩

theorem buildTables_splits_versions_of_two_versions :
    (∀ rows : List (Row Nat Nat), rows ≠ [] → 0 < twoVersionsIo.writtenSize rows) ∧
      twoVersionsIo.writtenSize [] = 0 ∧
      twoVersionsIo.merge [] = .ok ([(⟨1, EPOCH⟩, some 1)] ++ (⟨2, ⟨1⟩⟩, some 2) ::
        (⟨2, EPOCH⟩, some 2) :: [(⟨3, EPOCH⟩, some 3)]) ∧
      Sorted ([(⟨1, EPOCH⟩, some 1)] ++ (⟨2, ⟨1⟩⟩, some 2) :: (⟨2, EPOCH⟩, some 2) ::
        [(⟨3, EPOCH⟩, some 3)] : List (Row Nat Nat)) ∧
      (∀ k, 0 < k → k ≤ 1 →
        twoVersionsIo.writtenSize (([(⟨1, EPOCH⟩, some 1)] : List (Row Nat Nat)).take k) <
          pairOption.maxSstFileSize) ∧
      pairOption.maxSstFileSize ≤ twoVersionsIo.writtenSize ([(⟨1, EPOCH⟩, some 1)] ++ [(⟨2, ⟨1⟩⟩, some 2)]) ∧
      (⟨2, ⟨1⟩⟩ : Timestamped Nat).value = (⟨2, EPOCH⟩ : Timestamped Nat).value ∧
      ∃ built, buildTables twoVersionsIo pairOption 1 [] "db" 5 = .ok built ∧
        ∃ first second rest, built.edits = .add 1 first :: .add 1 second :: rest ∧
          first.contains 2 ∧ second.contains 2 := by
  have below : ∀ k, 0 < k → k ≤ 1 →
      twoVersionsIo.writtenSize (([(⟨1, EPOCH⟩, some 1)] : List (Row Nat Nat)).take k) <
        pairOption.maxSstFileSize := by
    intro k hk hk'
    obtain rfl : k = 1 := by omega
    decide
  have merged : twoVersionsIo.merge [] = .ok ([(⟨1, EPOCH⟩, some 1)] ++ (⟨2, ⟨1⟩⟩, some 2) ::
      (⟨2, EPOCH⟩, some 2) :: [(⟨3, EPOCH⟩, some 3)]) := rfl
  obtain ⟨built, h⟩ : ∃ built, buildTables twoVersionsIo pairOption 1 [] "db" 5 = .ok built :=
    ⟨_, rfl⟩
  exact ⟨fun _ h => List.length_pos.mpr h, rfl, merged, by decide, below, by decide, rfl, built, h,
    buildTables_splits_versions (fun _ h => List.length_pos.mpr h) rfl merged (by decide) below
      (by decide) rfl h⟩

end Tonbo.Compaction.BuildTables
