/- The on-disk table as its reads see it.
   source: src/src/ondisk/sstable.rs (`SsTable::get`, `SsTable::scan`)
   digest: a scan yields, in file order, the rows the range filter admits, at most `limit`
           of them; a point read is the first row of the scan of `[key, key]` at the key's
           stamp. On rows in key order that is the newest version at or below the stamp;
           on rows written batch after batch it is the read of the first batch with one. -/

import Tonbo.Inmem.ImmutableTable

set_option autoImplicit false
set_option relaxedAutoImplicit false

namespace Tonbo.Ondisk.SsTable

open Tonbo.Key Tonbo.Skiplist Tonbo.Inmem.ImmutableTable

variable {K V : Type} [LinearOrder K]

/-- Modelled from the spec: the row filter `get_range_filter` builds: the row's key in the
range, and its stamp at or below the read stamp. -/
def getRangeFilter (range : Bound K × Bound K) (ts : Timestamp) (row : Row K V) : Bool :=
  range.1.lowerAdmits row.1.value && range.2.upperAdmits row.1.value && decide (row.1.ts ≤ ts)

/-- `SsTable::scan` in ascending order, over the table's rows in file order: the rows the
row filter admits, at most `limit` of them. -/
def scan (rows : List (Row K V)) (range : Bound K × Bound K) (ts : Timestamp)
    (limit : Option Nat) : List (Row K V) :=
  match limit with
  | some n => (rows.filter (getRangeFilter range ts)).take n
  | none => rows.filter (getRangeFilter range ts)

/-- `SsTable::get`: the first row of the scan of `[key, key]` at the key's stamp, limited
to one row. -/
def get (rows : List (Row K V)) (key : Timestamped K) : Option (Row K V) :=
  (scan rows (.included key.value, .included key.value) key.ts (some 1)).head?

def Visible (key : Timestamped K) (row : Row K V) : Prop :=
  row.1.value = key.value ∧ row.1.ts ≤ key.ts

instance (key : Timestamped K) (row : Row K V) : Decidable (Visible key row) :=
  inferInstanceAs (Decidable (row.1.value = key.value ∧ row.1.ts ≤ key.ts))

def Newest (rows : List (Row K V)) (key : Timestamped K) (row : Row K V) : Prop :=
  row ∈ rows ∧ Visible key row ∧ ∀ r ∈ rows, Visible key r → r.1.ts ≤ row.1.ts

private theorem get_eq (rows : List (Row K V)) (key : Timestamped K) :
    get rows key = (rows.filter fun row => decide (Visible key row)).head? := by
  have filter : getRangeFilter (.included key.value, .included key.value) key.ts =
      fun row : Row K V => decide (Visible key row) := by
    funext row
    rw [Bool.eq_iff_iff]
    simp only [getRangeFilter, Visible, Bool.and_eq_true, decide_eq_true_eq,
      Bound.lowerAdmits_included, Bound.upperAdmits_included]
    exact ⟨fun ⟨⟨ge, le⟩, ts⟩ => ⟨le_antisymm le ge, ts⟩, fun ⟨eq, ts⟩ => ⟨⟨eq.ge, eq.le⟩, ts⟩⟩
  rw [get, scan, filter, List.head?_take]
  simp

private theorem get_append (a b : List (Row K V)) (key : Timestamped K) :
    get (a ++ b) key = (get a key).or (get b key) := by
  simp only [get_eq, List.filter_append, List.head?_append]

theorem get_flatten (parts : List (List (Row K V))) (key : Timestamped K) :
    get parts.flatten key = parts.findSome? fun rows => get rows key := by
  induction parts with
  | nil => simp [get_eq]
  | cons rows rest ih =>
    rw [List.flatten_cons, get_append, ih, List.findSome?_cons]
    cases get rows key <;> rfl

/-- On rows in key order, a point read returns exactly the newest version of the key at
or below the read stamp. -/
theorem get_of_sorted {rows : List (Row K V)} (sorted : Sorted rows) (key : Timestamped K)
    (row : Row K V) : get rows key = some row ↔ Newest rows key row := by
  rw [get_eq]
  have first : ∀ e, (rows.filter fun row => decide (Visible key row)).head? = some e →
      Newest rows key e ∧ ∀ r ∈ rows, Visible key r → e.1 ≤ r.1 := fun e he => by
    obtain ⟨mem, visible, least⟩ := head?_filter_of_sorted sorted _ he
    have visible : Visible key e := of_decide_eq_true visible
    refine ⟨⟨mem, visible, fun r hr vr => ?_⟩, fun r hr vr => least r hr (decide_eq_true vr)⟩
    rcases Timestamped.le_def.mp (least r hr (decide_eq_true vr)) with lt | ⟨-, le⟩
    · exact absurd (visible.1.trans vr.1.symm) lt.ne
    · exact le
  constructor
  · exact fun h => (first row h).1
  · intro newest
    have passes : row ∈ rows.filter fun row => decide (Visible key row) :=
      List.mem_filter.mpr ⟨newest.1, decide_eq_true newest.2.1⟩
    obtain ⟨e, rest, split⟩ := List.exists_cons_of_ne_nil (List.ne_nil_of_mem passes)
    have he : (rows.filter fun row => decide (Visible key row)).head? = some e := by
      rw [split]; rfl
    obtain ⟨⟨emem, evisible, -⟩, least⟩ := first e he
    have same : e.1 = row.1 := le_antisymm (least row newest.1 newest.2.1)
      (Timestamped.le_def.mpr (.inr ⟨newest.2.1.1.trans evisible.1.symm,
        newest.2.2 e emem evisible⟩))
    -- the keys of sorted rows are distinct, so the two rows of one key are one row
    have distinct : (rows.map (·.1)).Nodup := List.pairwise_map.mpr (sorted.imp ne_of_lt)
    rw [he, List.inj_on_of_nodup_map distinct emem newest.1 same]

def versionRows : List (Row Nat Nat) :=
  [(⟨3, ⟨2⟩⟩, some 32), (⟨3, ⟨1⟩⟩, some 31), (⟨4, EPOCH⟩, some 4)]

theorem get_of_sorted_of_versions :
    Sorted versionRows ∧ (get versionRows ⟨3, ⟨1⟩⟩ = some (⟨3, ⟨1⟩⟩, some 31) ↔
      Newest versionRows ⟨3, ⟨1⟩⟩ (⟨3, ⟨1⟩⟩, some 31)) := by
  have sorted : Sorted versionRows := by unfold Sorted; decide
  exact ⟨sorted, get_of_sorted sorted _ _⟩

end Tonbo.Ondisk.SsTable
