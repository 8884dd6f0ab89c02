/- Timestamps and timestamped keys, and the steps of the fallible code.
   source: src/src/inmem/mutable.rs (`Timestamp`, `EPOCH`, `Timestamped`, `u32::MAX.into()`)
   digest: a `u32` stamp, and keys ordered ascending with stamps descending within a key;
           a successful `Except` computation is peeled apart step by step. -/

import Mathlib.Data.Prod.Lex
import Mathlib.Order.Basic

set_option autoImplicit false
set_option relaxedAutoImplicit false

namespace Tonbo.Key

/-- The `Timestamp(u32)` newtype of the source. -/
structure Timestamp where
  val : UInt32
  deriving DecidableEq, Repr

instance : LinearOrder Timestamp :=
  LinearOrder.lift' (fun t => t.val.toNat) fun a b h => by
    cases a; cases b; simpa using UInt32.toNat.inj h

theorem Timestamp.le_def {a b : Timestamp} : a ≤ b ↔ a.val.toNat ≤ b.val.toNat := Iff.rfl

theorem Timestamp.lt_def {a b : Timestamp} : a < b ↔ a.val.toNat < b.val.toNat := Iff.rfl

/-- `EPOCH`, reserved for "earliest". -/
def EPOCH : Timestamp := ⟨0⟩

/-- `u32::MAX.into()`, the greatest timestamp. -/
def u32Max : Timestamp := ⟨4294967295⟩

theorem EPOCH_le (t : Timestamp) : EPOCH ≤ t := Nat.zero_le _

/-- A key paired with the timestamp of one of its versions. -/
structure Timestamped (K : Type) where
  value : K
  ts : Timestamp
  deriving DecidableEq, Repr

variable {K : Type} [LinearOrder K]

/-- The source's order on timestamped keys: the key ascending, then the timestamp
descending, so that the newest version of a key comes first. -/
instance : LinearOrder (Timestamped K) :=
  LinearOrder.lift' (fun x => toLex (x.value, OrderDual.toDual x.ts)) fun a b h => by
    cases a; cases b; simpa using h

theorem Timestamped.lt_def {a b : Timestamped K} :
    a < b ↔ a.value < b.value ∨ a.value = b.value ∧ b.ts < a.ts :=
  Prod.Lex.lt_iff _ _

theorem Timestamped.le_def {a b : Timestamped K} :
    a ≤ b ↔ a.value < b.value ∨ a.value = b.value ∧ b.ts ≤ a.ts :=
  Prod.Lex.le_iff _ _

theorem Timestamped.lt_mk_iff {x : Timestamped K} {k : K} {t : Timestamp} :
    x < ⟨k, t⟩ ↔ x.value < k ∨ x.value = k ∧ t < x.ts :=
  Timestamped.lt_def

theorem Timestamped.mk_lt_iff {x : Timestamped K} {k : K} {t : Timestamp} :
    (⟨k, t⟩ : Timestamped K) < x ↔ k < x.value ∨ k = x.value ∧ x.ts < t :=
  Timestamped.lt_def

theorem Timestamped.le_mk_iff {x : Timestamped K} {k : K} {t : Timestamp} :
    x ≤ ⟨k, t⟩ ↔ x.value < k ∨ x.value = k ∧ t ≤ x.ts :=
  Timestamped.le_def

theorem Timestamped.mk_le_iff {x : Timestamped K} {k : K} {t : Timestamp} :
    (⟨k, t⟩ : Timestamped K) ≤ x ↔ k < x.value ∨ k = x.value ∧ x.ts ≤ t :=
  Timestamped.le_def

/-- `std::ops::Bound`, one end of a range. -/
inductive Bound (α : Type) where
  | included (a : α)
  | excluded (a : α)
  | unbounded
  deriving DecidableEq, Repr

namespace Bound

variable {α : Type} [LinearOrder α]

def lowerAdmits : Bound α → α → Bool
  | included a, x => a ≤ x
  | excluded a, x => a < x
  | unbounded, _ => true

def upperAdmits : Bound α → α → Bool
  | included a, x => x ≤ a
  | excluded a, x => x < a
  | unbounded, _ => true

@[simp] theorem lowerAdmits_included (a x : α) : (included a).lowerAdmits x = decide (a ≤ x) := rfl
@[simp] theorem lowerAdmits_excluded (a x : α) : (excluded a).lowerAdmits x = decide (a < x) := rfl
@[simp] theorem lowerAdmits_unbounded (x : α) : (unbounded : Bound α).lowerAdmits x = true := rfl
@[simp] theorem upperAdmits_included (a x : α) : (included a).upperAdmits x = decide (x ≤ a) := rfl
@[simp] theorem upperAdmits_excluded (a x : α) : (excluded a).upperAdmits x = decide (x < a) := rfl
@[simp] theorem upperAdmits_unbounded (x : α) : (unbounded : Bound α).upperAdmits x = true := rfl

end Bound

/-- A file id: the source's ULIDs, unique and ordered by creation. -/
abbrev FileId := Nat

/-! A successful computation of `Except`, peeled apart step by step. -/

theorem bind_eq_ok {ε α β : Type} {x : Except ε α} {f : α → Except ε β} {b : β} :
    x >>= f = .ok b ↔ ∃ a, x = .ok a ∧ f a = .ok b := by
  cases x <;> simp [bind, Except.bind]

theorem mapError_eq_ok {ε ε' α : Type} {x : Except ε α} {f : ε → ε'} {a : α} :
    x.mapError f = .ok a ↔ x = .ok a := by
  cases x <;> simp [Except.mapError]

theorem map_eq_ok {ε α β : Type} {x : Except ε α} {f : α → β} {b : β} :
    x.map f = .ok b ↔ ∃ a, x = .ok a ∧ b = f a := by
  cases x <;> simp [Except.map, eq_comm]

end Tonbo.Key
