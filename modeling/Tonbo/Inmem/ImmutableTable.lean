/- The immutable columnar snapshot of a mutable table.
   source: src/src/compaction/mod.rs (its uses of `Immutable::scope` and
           `Immutable::as_record_batch`), src/src/inmem/mutable.rs (`Immutable::new`)
   digest: the rows of the frozen map in order, with the key bounds of its scope. -/

import Tonbo.Skiplist

set_option autoImplicit false
set_option relaxedAutoImplicit false

namespace Tonbo.Inmem.ImmutableTable

open Tonbo.Key Tonbo.Skiplist

variable {K V : Type} [LinearOrder K]

/-- One row of the in-memory tables: a timestamped key and the record, `none` for a
tombstone. -/
abbrev Row (K V : Type) := Timestamped K × Option V

/-- An `Immutable`: the frozen map of a mutable table, as its rows in key order. -/
structure Immutable (K V : Type) [LinearOrder K] where
  rows : List (Row K V)
  sorted : Sorted rows

namespace Immutable

/-- `Immutable::new(data, schema)`: the columns hold the map's entries in its order. -/
def new (data : SkipMap (Timestamped K) (Option V)) : Immutable K V := ⟨data.entries, data.sorted⟩

/-- Modelled from the spec: `Immutable::as_record_batch`, the columnar view of the rows,
read here row by row in the batch's order. -/
def asRecordBatch (b : Immutable K V) : List (Row K V) := b.rows

/-- Modelled from the spec: `Immutable::scope`, the least and the greatest key of the
rows, each absent when the batch is empty. -/
def scope (b : Immutable K V) : Option K × Option K :=
  (b.rows.head?.map (·.1.value), b.rows.getLast?.map (·.1.value))

@[simp] theorem new_rows (data : SkipMap (Timestamped K) (Option V)) :
    (new data).rows = data.entries := rfl

def keys (b : Immutable K V) : List K := b.rows.map (·.1.value)

private theorem keys_sorted (b : Immutable K V) : b.keys.Sorted (· ≤ ·) :=
  List.pairwise_map.mpr <| b.sorted.imp fun {x y} lt => by
    rcases Timestamped.lt_def.mp lt with lt | ⟨eq, -⟩
    exacts [lt.le, eq.le]

private theorem scope_eq (b : Immutable K V) : b.scope = (b.keys.head?, b.keys.getLast?) := by
  simp [scope, keys, List.head?_map, List.getLast?_map]

theorem scope_of_ne_nil (b : Immutable K V) (ne : b.rows ≠ []) :
    ∃ lo hi, b.scope = (some lo, some hi) := by
  obtain ⟨r, rest, eq⟩ := List.exists_cons_of_ne_nil ne
  refine ⟨r.1.value, (b.rows.getLast ne).1.value, ?_⟩
  simp [scope, eq, List.getLast?_eq_getLast _ (List.cons_ne_nil r rest)]

private theorem scope_of_nil (b : Immutable K V) (nil : b.rows = []) : b.scope = (none, none) := by
  simp [scope, nil]

theorem scope_of_nil_or_some (b : Immutable K V) :
    b.scope = (none, none) ∨ ∃ lo hi, b.scope = (some lo, some hi) := by
  by_cases nil : b.rows = []
  exacts [.inl (b.scope_of_nil nil), .inr (b.scope_of_ne_nil nil)]

theorem scope_bounds (b : Immutable K V) {lo hi : K} (h : b.scope = (some lo, some hi)) :
    lo ∈ b.keys ∧ hi ∈ b.keys ∧ ∀ k ∈ b.keys, lo ≤ k ∧ k ≤ hi := by
  rw [scope_eq, Prod.mk.injEq] at h
  obtain ⟨⟨rest, first⟩, ⟨init, last⟩⟩ :=
    And.imp List.head?_eq_some_iff.mp List.getLast?_eq_some_iff.mp h
  have sorted := b.keys_sorted
  refine ⟨first ▸ List.mem_cons_self _ _, last ▸ List.mem_append_right _ (List.mem_singleton_self _),
    fun k hk => ⟨?_, ?_⟩⟩
  · rw [first] at sorted hk
    rcases List.mem_cons.mp hk with rfl | hk
    exacts [le_rfl, List.rel_of_sorted_cons sorted k hk]
  · rw [last] at sorted hk
    rcases List.mem_append.mp hk with hk | hk
    · exact (List.pairwise_append.mp sorted).2.2 k hk hi (List.mem_singleton_self _)
    · rw [List.mem_singleton.mp hk]

end Immutable

end Tonbo.Inmem.ImmutableTable
