/- The mutable table: the MVCC map that takes writes first, behind its write-ahead log.
   source: src/src/inmem/mutable.rs
   digest: append writes the log and then the map; get and scan translate key bounds
           into timestamped bounds; check_conflict looks for newer versions. -/

import Tonbo.Inmem.ImmutableTable

set_option autoImplicit false
set_option relaxedAutoImplicit false

namespace Tonbo.Inmem.MutableTable

open Tonbo.Key Tonbo.Skiplist Tonbo.Inmem.ImmutableTable

variable {K V : Type} [LinearOrder K]

/-- `LogType`: how a log entry carries its record. -/
inductive LogType where
  | full
  | first
  | middle
  | last
  deriving DecidableEq, Repr

/-- A write-ahead log entry, `Log::new(key, value, log_ty)`. -/
structure Log (K V : Type) where
  key : Timestamped K
  value : Option V
  logType : Option LogType

/-- The log file as the table uses it: which writes and which flushes fail. The file
and its codec are external collaborators. -/
structure WalIo (K V : Type) where
  writeFails : FileId → Log K V → Bool
  flushFails : FileId → Bool

/-- `DbError::WalWrite`, the error `append` raises. -/
inductive DbError where
  | walWrite
  deriving DecidableEq, Repr

/-- `fusio_log::error::LogError`, the error of a failed flush. -/
inductive LogError where
  | io
  deriving DecidableEq, Repr

/-- A `Mutable`: its ordered map and the id of its log file when the log is on. The
trigger is shared with `DbStorage` and enters only through `check_if_exceed`. -/
structure Mutable (K V : Type) [LinearOrder K] where
  data : SkipMap (Timestamped K) (Option V)
  wal : Option FileId

namespace Mutable

/-- `Mutable::new`: an empty map, with a log file when `use_wal` is set; `fileId` is
the id `generate_file_id()` returns. -/
def new (useWal : Bool) (fileId : FileId) : Mutable K V :=
  ⟨.empty, if useWal then some fileId else none⟩

/-- The log write of `append`, made when the entry has a log type and the table a log. -/
def writeWal (io : WalIo K V) (m : Mutable K V) (entry : Log K V) : Except DbError Unit :=
  match entry.logType, m.wal with
  | some _, some wal => if io.writeFails wal entry then .error .walWrite else .ok ()
  | _, _ => .ok ()

/-- `Mutable::append`: the log write, then the insert into the map; the flag returned
is the trigger's verdict on the value. -/
def append (io : WalIo K V) (checkIfExceed : Option V → Bool) (m : Mutable K V)
    (logTy : Option LogType) (key : K) (ts : Timestamp) (value : Option V) :
    Except DbError (Mutable K V × Bool) := do
  let recordEntry : Log K V := ⟨⟨key, ts⟩, value, logTy⟩
  m.writeWal io recordEntry
  let isExceeded := checkIfExceed recordEntry.value
  pure ({ m with data := m.data.insert recordEntry.key recordEntry.value }, isExceeded)

/-- `Mutable::insert`: a live record under its own key. -/
def insert (io : WalIo K V) (checkIfExceed : Option V → Bool) (recordKey : V → K)
    (m : Mutable K V) (logTy : LogType) (record : V) (ts : Timestamp) :
    Except DbError (Mutable K V × Bool) :=
  m.append io checkIfExceed (some logTy) (recordKey record) ts (some record)

/-- `Mutable::remove`: a tombstone. -/
def remove (io : WalIo K V) (checkIfExceed : Option V → Bool) (m : Mutable K V)
    (logTy : LogType) (key : K) (ts : Timestamp) : Except DbError (Mutable K V × Bool) :=
  m.append io checkIfExceed (some logTy) key ts none

/-- `Mutable::get`: the first entry of the range `(key, ts) ..= (key, EPOCH)`. -/
def get (m : Mutable K V) (key : K) (ts : Timestamp) : Option (Row K V) :=
  (m.data.range (.included ⟨key, ts⟩) (.included ⟨key, EPOCH⟩)).head?

def scanLower : Bound K → Timestamp → Bound (Timestamped K)
  | .included key, ts => .included ⟨key, ts⟩
  | .excluded key, _ => .excluded ⟨key, EPOCH⟩
  | .unbounded, _ => .unbounded

def scanUpper : Bound K → Timestamp → Bound (Timestamped K)
  | .included key, _ => .included ⟨key, EPOCH⟩
  | .excluded key, ts => .excluded ⟨key, ts⟩
  | .unbounded, _ => .unbounded

/-- `Mutable::scan`, as the entries its range iterator yields. -/
def scan (m : Mutable K V) (range : Bound K × Bound K) (ts : Timestamp) : List (Row K V) :=
  m.data.range (scanLower range.1 ts) (scanUpper range.2 ts)

/-- `Mutable::is_empty`. -/
def isEmpty (m : Mutable K V) : Bool := m.data.isEmpty

/-- `Mutable::check_conflict`: whether the range `(key, u32::MAX) .. (key, ts)`, both
ends excluded, has an entry. -/
def checkConflict (m : Mutable K V) (key : K) (ts : Timestamp) : Bool :=
  (m.data.range (.excluded ⟨key, u32Max⟩) (.excluded ⟨key, ts⟩)).head?.isSome

/-- `Mutable::into_immutable`: flush the log if there is one, then freeze the map. -/
def intoImmutable (io : WalIo K V) (m : Mutable K V) :
    Except LogError (Option FileId × Immutable K V) :=
  match m.wal with
  | some wal => if io.flushFails wal then .error .io else .ok (some wal, .new m.data)
  | none => .ok (none, .new m.data)

@[simp] theorem new_data (useWal : Bool) (fileId : FileId) :
    (new useWal fileId : Mutable K V).data = .empty := rfl

theorem intoImmutable_eq {io : WalIo K V} {m : Mutable K V}
    {frozen : Option FileId × Immutable K V} (h : m.intoImmutable io = .ok frozen) :
    frozen = (m.wal, .new m.data) := by
  unfold intoImmutable at h
  split at h
  · rename_i wal hwal
    split at h
    · cases h
    · cases h; rw [hwal]
  · rename_i hwal
    cases h; rw [hwal]

theorem intoImmutable_ok {io : WalIo K V} {m : Mutable K V}
    {frozen : Option FileId × Immutable K V} (h : m.intoImmutable io = .ok frozen) :
    frozen.2.rows = m.data.entries := by
  rw [intoImmutable_eq h]; rfl

theorem append_ok {io : WalIo K V} {checkIfExceed : Option V → Bool} {m m' : Mutable K V}
    {logTy : Option LogType} {key : K} {ts : Timestamp} {value : Option V} {b : Bool}
    (h : m.append io checkIfExceed logTy key ts value = .ok (m', b)) :
    m'.data = m.data.insert ⟨key, ts⟩ value ∧ m'.wal = m.wal := by
  unfold append at h
  cases hw : m.writeWal io ⟨⟨key, ts⟩, value, logTy⟩ with
  | error e => simp [hw, bind, Except.bind] at h
  | ok u =>
    simp only [hw, bind, Except.bind, pure, Except.pure, Except.ok.injEq, Prod.mk.injEq] at h
    rw [← h.1]
    exact ⟨rfl, rfl⟩

private theorem get_admits (key : K) (ts : Timestamp) (x : Timestamped K) :
    ((Bound.included ⟨key, ts⟩).lowerAdmits x && (Bound.included ⟨key, EPOCH⟩).upperAdmits x)
      = true ↔ x.value = key ∧ x.ts ≤ ts := by
  simp only [Bound.lowerAdmits_included, Bound.upperAdmits_included, Bool.and_eq_true,
    decide_eq_true_eq, Timestamped.mk_le_iff, Timestamped.le_mk_iff]
  constructor
  · rintro ⟨lt | ⟨rfl, le⟩, gt | ⟨eq, -⟩⟩
    · exact absurd (lt.trans gt) (lt_irrefl _)
    · exact absurd (eq ▸ lt) (lt_irrefl _)
    · exact absurd gt (lt_irrefl _)
    · exact ⟨rfl, le⟩
  · rintro ⟨rfl, le⟩
    exact ⟨.inr ⟨rfl, le⟩, .inr ⟨rfl, EPOCH_le _⟩⟩

private theorem checkConflict_admits (key : K) (ts : Timestamp) (x : Timestamped K) :
    ((Bound.excluded ⟨key, u32Max⟩).lowerAdmits x && (Bound.excluded ⟨key, ts⟩).upperAdmits x)
      = true ↔ x.value = key ∧ ts < x.ts ∧ x.ts < u32Max := by
  simp only [Bound.lowerAdmits_excluded, Bound.upperAdmits_excluded, Bool.and_eq_true,
    decide_eq_true_eq, Timestamped.mk_lt_iff, Timestamped.lt_mk_iff]
  constructor
  · rintro ⟨lt | ⟨rfl, below⟩, gt | ⟨eq, above⟩⟩
    · exact absurd (lt.trans gt) (lt_irrefl _)
    · exact absurd (eq ▸ lt) (lt_irrefl _)
    · exact absurd gt (lt_irrefl _)
    · exact ⟨rfl, above, below⟩
  · rintro ⟨rfl, above, below⟩
    exact ⟨.inr ⟨rfl, below⟩, .inr ⟨rfl, above⟩⟩

private theorem scanLower_admits (lower : Bound K) {ts : Timestamp} {x : Timestamped K}
    (visible : x.ts ≤ ts) : (scanLower lower ts).lowerAdmits x = lower.lowerAdmits x.value := by
  cases lower with
  | included key =>
    simp only [scanLower, Bound.lowerAdmits_included, decide_eq_decide, Timestamped.mk_le_iff]
    exact ⟨fun h => h.elim le_of_lt fun h => h.1.le, fun h => h.lt_or_eq.imp_right (⟨·, visible⟩)⟩
  | excluded key =>
    simp only [scanLower, Bound.lowerAdmits_excluded, decide_eq_decide, Timestamped.mk_lt_iff]
    exact ⟨fun h => h.elim id fun h => absurd h.2 (not_lt.mpr (EPOCH_le _)), .inl⟩
  | unbounded => rfl

private theorem scanUpper_admits (upper : Bound K) {ts : Timestamp} {x : Timestamped K}
    (visible : x.ts ≤ ts) : (scanUpper upper ts).upperAdmits x = upper.upperAdmits x.value := by
  cases upper with
  | included key =>
    simp only [scanUpper, Bound.upperAdmits_included, decide_eq_decide, Timestamped.le_mk_iff]
    exact ⟨fun h => h.elim le_of_lt fun h => h.1.le,
      fun h => h.lt_or_eq.imp_right (⟨·, EPOCH_le _⟩)⟩
  | excluded key =>
    simp only [scanUpper, Bound.upperAdmits_excluded, decide_eq_decide, Timestamped.lt_mk_iff]
    exact ⟨fun h => h.elim id fun h => absurd h.2 (not_lt.mpr visible), .inl⟩
  | unbounded => rfl

end Mutable

/-- One `append` call as a caller issues it, through `insert` or `remove`. -/
structure Append (K V : Type) where
  logType : Option LogType
  key : K
  ts : Timestamp
  value : Option V

def Append.row (a : Append K V) : Row K V := (⟨a.key, a.ts⟩, a.value)

def appendAll (io : WalIo K V) (checkIfExceed : Option V → Bool) (m : Mutable K V) :
    List (Append K V) → Except DbError (Mutable K V)
  | [] => .ok m
  | a :: rest => do
    let (m', _) ← m.append io checkIfExceed a.logType a.key a.ts a.value
    appendAll io checkIfExceed m' rest

def lastValue (x : Timestamped K) (rows : List (Row K V)) : Option (Option V) :=
  (rows.reverse.find? (·.1 = x)).map (·.2)

private theorem lastValue_append_singleton (x : Timestamped K) (rows : List (Row K V)) (r : Row K V) :
    lastValue x (rows ++ [r]) = if r.1 = x then some r.2 else lastValue x rows := by
  by_cases h : r.1 = x <;> simp [lastValue, h]

private theorem lastValue_eq_some {x : Timestamped K} {rows : List (Row K V)} {v : Option V}
    (h : lastValue x rows = some v) : (x, v) ∈ rows := by
  obtain ⟨r, found, rfl⟩ := Option.map_eq_some'.mp h
  have key : r.1 = x := by simpa using List.find?_some found
  exact key ▸ List.mem_reverse.mp (List.mem_of_find?_eq_some found)

private theorem lastValue_isSome {r : Row K V} {rows : List (Row K V)} (mem : r ∈ rows) :
    ∃ v, lastValue r.1 rows = some v := by
  obtain ⟨y, found⟩ := Option.isSome_iff_exists.mp
    (List.find?_isSome.mpr ⟨r, List.mem_reverse.mpr mem, by simp⟩ :
      (rows.reverse.find? (·.1 = r.1)).isSome)
  exact ⟨y.2, by simp [lastValue, found]⟩

private theorem mem_foldl_insert (rows : List (Row K V)) (e : Row K V) :
    e ∈ (rows.foldl (fun d r => d.insert r.1 r.2) SkipMap.empty).entries ↔
      lastValue e.1 rows = some e.2 := by
  induction rows using List.reverseRecOn with
  | nil => simp [lastValue]
  | append_singleton rows r ih =>
    rw [List.foldl_append, List.foldl_cons, List.foldl_nil, SkipMap.mem_insert, ih,
      lastValue_append_singleton]
    by_cases key : r.1 = e.1
    · obtain ⟨x, v⟩ := e
      obtain ⟨y, w⟩ := r
      simp only at key
      subst key
      simp [eq_comm]
    · have : e ≠ r := fun h => key (h ▸ rfl)
      simp [key, this, Ne.symm key]

private theorem appendAll_data {io : WalIo K V} {checkIfExceed : Option V → Bool} {m m' : Mutable K V}
    {hist : List (Append K V)} (ran : appendAll io checkIfExceed m hist = .ok m') :
    m'.data = (hist.map Append.row).foldl (fun d r => d.insert r.1 r.2) m.data := by
  induction hist generalizing m with
  | nil => simp only [appendAll, Except.ok.injEq] at ran; simp [ran]
  | cons a rest ih =>
    simp only [appendAll, bind, Except.bind] at ran
    split at ran
    · cases ran
    · rename_i p step
      rw [ih ran, (Mutable.append_ok step).1]
      rfl

private theorem mem_of_appendAll {io : WalIo K V} {checkIfExceed : Option V → Bool} {useWal : Bool}
    {walId : FileId} {hist : List (Append K V)} {m : Mutable K V}
    (ran : appendAll io checkIfExceed (Mutable.new useWal walId) hist = .ok m) (e : Row K V) :
    e ∈ m.data.entries ↔ lastValue e.1 (hist.map Append.row) = some e.2 := by
  rw [appendAll_data ran, Mutable.new_data]
  exact mem_foldl_insert _ e

private theorem held_of_appendAll {io : WalIo K V} {checkIfExceed : Option V → Bool} {useWal : Bool}
    {walId : FileId} {hist : List (Append K V)} {m : Mutable K V}
    (ran : appendAll io checkIfExceed (Mutable.new useWal walId) hist = .ok m) {a : Append K V}
    (ha : a ∈ hist) : ∃ v, (a.row.1, v) ∈ m.data.entries := by
  obtain ⟨v, hv⟩ := lastValue_isSome (List.mem_map_of_mem Append.row ha)
  exact ⟨v, (mem_of_appendAll ran _).mpr hv⟩

private theorem get_eq_some_of_appendAll {io : WalIo K V} {checkIfExceed : Option V → Bool}
    {useWal : Bool} {walId : FileId} {hist : List (Append K V)} {m : Mutable K V}
    (ran : appendAll io checkIfExceed (Mutable.new useWal walId) hist = .ok m)
    {k : K} {t : Timestamp} {e : Row K V} (found : m.get k t = some e) :
    e.1.value = k ∧ e.1.ts ≤ t ∧ (∃ a ∈ hist, a.key = k ∧ a.ts = e.1.ts) ∧
      (∀ a ∈ hist, a.key = k → a.ts ≤ t → a.ts ≤ e.1.ts) ∧
      lastValue e.1 (hist.map Append.row) = some e.2 := by
  obtain ⟨emem, admitted, least⟩ := head?_filter_of_sorted m.data.sorted _ found
  obtain ⟨key, le⟩ := (Mutable.get_admits k t e.1).mp admitted
  have last := (mem_of_appendAll ran e).mp emem
  obtain ⟨a, ha, row⟩ := List.mem_map.mp (lastValue_eq_some last)
  refine ⟨key, le, ⟨a, ha, key ▸ congrArg (·.1.value) row, congrArg (·.1.ts) row⟩,
    fun b hb bkey ble => ?_, last⟩
  obtain ⟨v, hv⟩ := held_of_appendAll ran hb
  rcases Timestamped.le_def.mp (least _ hv ((Mutable.get_admits k t _).mpr ⟨bkey, ble⟩)) with
    lt | ⟨-, newer⟩
  · exact absurd (key.trans bkey.symm ▸ lt) (lt_irrefl _)
  · exact newer

/-- A point read after a run of appends on an empty table: nothing exactly when no
append wrote the key at a stamp at most `t`, and otherwise the newest such version,
carrying the value of the last append to it. -/
theorem get_returns_newest_visible {io : WalIo K V} {checkIfExceed : Option V → Bool}
    {useWal : Bool} {walId : FileId} {hist : List (Append K V)} {m : Mutable K V}
    (ran : appendAll io checkIfExceed (Mutable.new useWal walId) hist = .ok m)
    (k : K) (t : Timestamp) :
    (m.get k t = none ↔ ∀ a ∈ hist, ¬ (a.key = k ∧ a.ts ≤ t)) ∧
      ∀ e, m.get k t = some e →
        e.1.value = k ∧ e.1.ts ≤ t ∧ (∃ a ∈ hist, a.key = k ∧ a.ts = e.1.ts) ∧
          (∀ a ∈ hist, a.key = k → a.ts ≤ t → a.ts ≤ e.1.ts) ∧
          lastValue e.1 (hist.map Append.row) = some e.2 := by
  refine ⟨⟨fun none_found a ha ⟨key, le⟩ => ?_, fun unwritten => ?_⟩,
    fun e => get_eq_some_of_appendAll ran⟩
  · obtain ⟨v, hv⟩ := held_of_appendAll ran ha
    have rejected := List.filter_eq_nil_iff.mp (List.head?_eq_none_iff.mp none_found) _ hv
    exact rejected ((Mutable.get_admits k t _).mpr ⟨key, le⟩)
  · cases found : m.get k t with
    | none => rfl
    | some e =>
      obtain ⟨key, le, ⟨a, ha, akey, ats⟩, -⟩ := get_eq_some_of_appendAll ran found
      exact absurd ⟨akey, ats ▸ le⟩ (unwritten a ha)

theorem get_returns_newest_visible_of_two_versions :
    ∃ m : Mutable Nat Nat,
      appendAll ⟨fun _ _ => false, fun _ => false⟩ (fun _ => false) (Mutable.new true 0)
          [⟨some .full, 2, ⟨0⟩, some 5⟩, ⟨some .full, 2, ⟨1⟩, some 6⟩] = .ok m ∧
        (m.get 2 ⟨1⟩ = none ↔
          ∀ a ∈ [(⟨some .full, 2, ⟨0⟩, some 5⟩ : Append Nat Nat), ⟨some .full, 2, ⟨1⟩, some 6⟩],
            ¬ (a.key = 2 ∧ a.ts ≤ ⟨1⟩)) ∧
        ∀ e, m.get 2 ⟨1⟩ = some e →
          e.1.value = 2 ∧ e.1.ts ≤ ⟨1⟩ ∧
            (∃ a ∈ [(⟨some .full, 2, ⟨0⟩, some 5⟩ : Append Nat Nat), ⟨some .full, 2, ⟨1⟩, some 6⟩],
              a.key = 2 ∧ a.ts = e.1.ts) ∧
            (∀ a ∈ [(⟨some .full, 2, ⟨0⟩, some 5⟩ : Append Nat Nat), ⟨some .full, 2, ⟨1⟩, some 6⟩],
              a.key = 2 → a.ts ≤ ⟨1⟩ → a.ts ≤ e.1.ts) ∧
            lastValue e.1 ([(⟨some .full, 2, ⟨0⟩, some 5⟩ : Append Nat Nat),
              ⟨some .full, 2, ⟨1⟩, some 6⟩].map Append.row) = some e.2 := by
  obtain ⟨m, ran⟩ : ∃ m, appendAll ⟨fun _ _ => false, fun _ => false⟩ (fun _ => false)
      (Mutable.new true 0) [(⟨some .full, 2, ⟨0⟩, some 5⟩ : Append Nat Nat),
        ⟨some .full, 2, ⟨1⟩, some 6⟩] = .ok m := ⟨_, rfl⟩
  exact ⟨m, ran, get_returns_newest_visible ran 2 ⟨1⟩⟩

/-- A range scan read at `ts`, cut to the versions visible at `ts`, is exactly the stored
entries within both key bounds and visible at `ts`, each once, in key-ascending,
stamp-descending order. -/
theorem scan_visible_eq_entries_within (m : Mutable K V) (lower upper : Bound K)
    (ts : Timestamp) :
    (m.scan (lower, upper) ts).filter (fun e => e.1.ts ≤ ts) =
        m.data.entries.filter (fun e =>
          lower.lowerAdmits e.1.value && upper.upperAdmits e.1.value && decide (e.1.ts ≤ ts)) ∧
      Sorted ((m.scan (lower, upper) ts).filter (fun e => e.1.ts ≤ ts)) := by
  refine ⟨?_, (m.data.range_sorted _ _).filter _⟩
  rw [Mutable.scan, SkipMap.range, List.filter_filter]
  refine List.filter_congr fun e _ => ?_
  by_cases visible : e.1.ts ≤ ts
  · simp [visible, Mutable.scanLower_admits lower visible, Mutable.scanUpper_admits upper visible]
  · simp [visible]

/-- `check_conflict` reports exactly the versions of the key newer than `ts` and older
than `u32::MAX`. -/
theorem checkConflict_iff (m : Mutable K V) (key : K) (ts : Timestamp) :
    m.checkConflict key ts = true ↔
      ∃ e ∈ m.data.entries, e.1.value = key ∧ ts < e.1.ts ∧ e.1.ts < u32Max := by
  simp only [Mutable.checkConflict, SkipMap.range, List.head?_isSome, ne_eq,
    List.filter_eq_nil_iff, not_forall, not_not, exists_prop, Mutable.checkConflict_admits]

/-- A tombstone appended at `u32::MAX` is newer than `EPOCH`, yet `check_conflict` at
`EPOCH` does not report it. -/
theorem checkConflict_misses_u32Max :
    (do
      let m ← appendAll (⟨fun _ _ => false, fun _ => false⟩ : WalIo Nat Nat) (fun _ => false)
        (Mutable.new true 0) [⟨some .full, 0, u32Max, none⟩]
      pure (m.checkConflict 0 EPOCH, m.data.entries.map (·.1))) =
      (.ok (false, [⟨0, u32Max⟩]) : Except DbError (Bool × List (Timestamped Nat))) := rfl

end Tonbo.Inmem.MutableTable
