/- The ordered map under the mutable table.
   source: src/src/inmem/mutable.rs (`SkipMap` of crossbeam_skiplist, used through
           `insert`, `range(..).next()`, `is_empty`, `len`)
   digest: a strictly sorted entry list; insert replaces an equal key, a range is a
           filter of the list and keeps its order. -/

import Tonbo.Key
import Mathlib.Data.List.Sort

set_option autoImplicit false
set_option relaxedAutoImplicit false

namespace Tonbo.Skiplist

open Tonbo.Key

variable {κ ν : Type} [LinearOrder κ]

/-- Entry lists strictly ascending in their keys. -/
def Sorted (l : List (κ × ν)) : Prop := l.Pairwise (fun a b => a.1 < b.1)

instance (l : List (κ × ν)) : Decidable (Sorted l) :=
  inferInstanceAs (Decidable (l.Pairwise fun a b : κ × ν => a.1 < b.1))

/-- `SkipMap::insert` on the entry list: the new entry goes before the first greater
key, and replaces the entry of an equal key. -/
def insertEntry (k : κ) (v : ν) : List (κ × ν) → List (κ × ν)
  | [] => [(k, v)]
  | e :: rest =>
    if k < e.1 then (k, v) :: e :: rest
    else if k = e.1 then (k, v) :: rest
    else e :: insertEntry k v rest

theorem insertEntry_perm (k : κ) (v : ν) {l : List (κ × ν)} (sorted : Sorted l) :
    (insertEntry k v l).Perm ((k, v) :: l.filter fun e => e.1 ≠ k) := by
  induction l with
  | nil => simp [insertEntry]
  | cons e rest ih =>
    have head_lt : ∀ y ∈ rest, e.1 < y.1 := (List.pairwise_cons.mp sorted).1
    simp only [insertEntry]
    split_ifs with lt eq
    · rw [List.filter_eq_self.mpr fun y hy => ?_]
      rcases List.mem_cons.mp hy with rfl | hy
      exacts [by simpa using lt.ne', by simpa using (lt.trans (head_lt y hy)).ne']
    · rw [List.filter_cons_of_neg (by simpa using eq.symm),
        List.filter_eq_self.mpr fun y hy => by simpa [eq] using (head_lt y hy).ne']
    · rw [List.filter_cons_of_pos (by simpa using Ne.symm eq)]
      exact ((ih (List.pairwise_cons.mp sorted).2).cons e).trans (List.Perm.swap _ _ _)

private theorem mem_insertEntry {k : κ} {v : ν} {x : κ × ν} {l : List (κ × ν)} (sorted : Sorted l) :
    x ∈ insertEntry k v l ↔ x = (k, v) ∨ x ∈ l ∧ x.1 ≠ k := by
  simp [(insertEntry_perm k v sorted).mem_iff]

private theorem insertEntry_sorted (k : κ) (v : ν) {l : List (κ × ν)} (sorted : Sorted l) :
    Sorted (insertEntry k v l) := by
  induction l with
  | nil => exact List.pairwise_singleton _ _
  | cons e rest ih =>
    have tail := List.pairwise_cons.mp sorted
    simp only [insertEntry]
    split_ifs with lt eq
    · exact List.Pairwise.cons (fun y hy => by
        rcases List.mem_cons.mp hy with rfl | hy
        exacts [lt, lt.trans (tail.1 y hy)]) sorted
    · subst eq
      exact List.Pairwise.cons tail.1 tail.2
    · have gt : e.1 < k := lt_of_le_of_ne (not_lt.mp lt) (Ne.symm eq)
      refine List.Pairwise.cons (fun y hy => ?_) (ih tail.2)
      rcases (mem_insertEntry tail.2).mp hy with rfl | ⟨hy, -⟩
      exacts [gt, tail.1 y hy]

/-- The `SkipMap` of the source, through its entries in ascending key order. -/
structure SkipMap (κ ν : Type) [LinearOrder κ] where
  entries : List (κ × ν)
  sorted : Sorted entries

namespace SkipMap

/-- `SkipMap::default()`. -/
def empty : SkipMap κ ν := ⟨[], List.Pairwise.nil⟩

/-- `SkipMap::insert`. -/
def insert (m : SkipMap κ ν) (k : κ) (v : ν) : SkipMap κ ν :=
  ⟨insertEntry k v m.entries, insertEntry_sorted k v m.sorted⟩

/-- `SkipMap::range((lower, upper))`, as the entries it yields in order. -/
def range (m : SkipMap κ ν) (lower upper : Bound κ) : List (κ × ν) :=
  m.entries.filter fun e => lower.lowerAdmits e.1 && upper.upperAdmits e.1

/-- `SkipMap::is_empty`. -/
def isEmpty (m : SkipMap κ ν) : Bool := m.entries.isEmpty

@[simp] theorem empty_entries : (empty : SkipMap κ ν).entries = [] := rfl

@[simp] theorem insert_entries (m : SkipMap κ ν) (k : κ) (v : ν) :
    (m.insert k v).entries = insertEntry k v m.entries := rfl

theorem mem_insert {m : SkipMap κ ν} {k : κ} {v : ν} {x : κ × ν} :
    x ∈ (m.insert k v).entries ↔ x = (k, v) ∨ x ∈ m.entries ∧ x.1 ≠ k :=
  mem_insertEntry m.sorted

theorem range_sorted (m : SkipMap κ ν) (lower upper : Bound κ) : Sorted (m.range lower upper) :=
  m.sorted.filter _

end SkipMap

theorem head?_filter_of_sorted {l : List (κ × ν)} (sorted : Sorted l) (p : κ × ν → Bool)
    {e : κ × ν} (first : (l.filter p).head? = some e) :
    e ∈ l ∧ p e ∧ ∀ y ∈ l, p y → e.1 ≤ y.1 := by
  induction l with
  | nil => simp at first
  | cons a rest ih =>
    have tail := List.pairwise_cons.mp sorted
    by_cases pa : p a
    · simp only [List.filter_cons_of_pos pa, List.head?_cons, Option.some.injEq] at first
      subst first
      refine ⟨List.mem_cons_self _ _, pa, fun y hy _ => ?_⟩
      rcases List.mem_cons.mp hy with rfl | hy
      exacts [le_rfl, (tail.1 y hy).le]
    · rw [List.filter_cons_of_neg pa] at first
      obtain ⟨mem, pe, least⟩ := ih tail.2 first
      refine ⟨List.mem_cons_of_mem _ mem, pe, fun y hy py => ?_⟩
      rcases List.mem_cons.mp hy with rfl | hy
      exacts [absurd py pa, least y hy py]

end Tonbo.Skiplist
