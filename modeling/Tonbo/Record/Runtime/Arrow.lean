/- The Arrow layer the dynamic record arrays are built on.
   source: src/src/record/runtime/array.rs (`DataType`, `Value`, the Arrow builders and
           arrays it downcasts to, `RecordBatch::try_new`, `RecordBatch::project`)
   digest: eleven column types; a `Value` holding a value, an `Option` or a finished array
           behind `Arc<dyn Any>`; builders that append cells; and the checks a record batch
           makes of its columns. -/

import Mathlib.Data.List.Basic

set_option autoImplicit false
set_option relaxedAutoImplicit false

namespace Tonbo.Record.Runtime.Arrow

/-- `DataType`, the eleven column types of a dynamic record. -/
inductive DataType where
  | uint8 | uint16 | uint32 | uint64 | int8 | int16 | int32 | int64 | string | boolean | bytes
  deriving DecidableEq, Repr

/-- A value of one of the eleven types; the signed integers are their two's complement
bits. -/
inductive Datum where
  | uint8 (v : UInt8)
  | uint16 (v : UInt16)
  | uint32 (v : UInt32)
  | uint64 (v : UInt64)
  | int8 (v : BitVec 8)
  | int16 (v : BitVec 16)
  | int32 (v : BitVec 32)
  | int64 (v : BitVec 64)
  | string (v : String)
  | boolean (v : Bool)
  | bytes (v : List UInt8)
  deriving DecidableEq, Repr

def Datum.datatype : Datum → DataType
  | .uint8 _ => .uint8
  | .uint16 _ => .uint16
  | .uint32 _ => .uint32
  | .uint64 _ => .uint64
  | .int8 _ => .int8
  | .int16 _ => .int16
  | .int32 _ => .int32
  | .int64 _ => .int64
  | .string _ => .string
  | .boolean _ => .boolean
  | .bytes _ => .bytes

/-- `Default::default()` of each type: zero, the empty string, `false`, no bytes. -/
def DataType.default : DataType → Datum
  | .uint8 => .uint8 0
  | .uint16 => .uint16 0
  | .uint32 => .uint32 0
  | .uint64 => .uint64 0
  | .int8 => .int8 0
  | .int16 => .int16 0
  | .int32 => .int32 0
  | .int64 => .int64 0
  | .string => .string ""
  | .boolean => .boolean false
  | .bytes => .bytes []

@[simp] theorem DataType.datatype_default (t : DataType) : t.default.datatype = t := by
  cases t <;> rfl

/-- How the code panics: an `unwrap` of a `None` (a failed downcast or cast, an index or a
metadata entry that is absent), an index past the end of an array, or an `expect` with
its message. -/
inductive Panic where
  | unwrap
  | outOfBounds
  | expect (msg : String)
  deriving DecidableEq, Repr

/-- What the `Arc<dyn Any>` of a `Value` holds: a value (a key, or a value `get` reads out
of an array), an `Option` of a type (a column of a record), or a finished array of a
type, its cells `none` where null. -/
inductive Payload where
  | native (d : Datum)
  | optional (t : DataType) (c : Option Datum)
  | array (t : DataType) (cells : List (Option Datum))
  deriving DecidableEq, Repr

/-- `cast_arc_value!(v, T)`: the payload as a value of type `t`. -/
def Payload.asNative (t : DataType) : Payload → Option Datum
  | .native d => if d.datatype = t then some d else none
  | _ => none

/-- `cast_arc_value!(v, Option<T>)`: the payload as an `Option` of type `t`, whose value,
when present, is of that type as the source's typing ensures. -/
def Payload.asOptional (t : DataType) : Payload → Option (Option Datum)
  | .optional t' c => if t' = t ∧ c.all (·.datatype = t) then some c else none
  | _ => none

/-- `cast_arc_value!(v, PrimitiveArray<T>)` and its like: the payload as an array of
type `t`. -/
def Payload.asArray (t : DataType) : Payload → Option (List (Option Datum))
  | .array t' cells => if t' = t then some cells else none
  | _ => none

/-- `Value`: a column of a dynamic record, its description and its payload. -/
structure Value where
  datatype : DataType
  name : String
  value : Payload
  isNullable : Bool
  deriving DecidableEq, Repr

/-- An Arrow array builder behind `Box<dyn ArrayBuilder>`: its type, and the cells appended
since its last finish, `none` for a null. -/
structure ArrayBuilder where
  datatype : DataType
  cells : List (Option Datum)
  deriving DecidableEq, Repr

/-- `append_value`. -/
def ArrayBuilder.appendValue (b : ArrayBuilder) (d : Datum) : ArrayBuilder :=
  { b with cells := b.cells ++ [some d] }

/-- `append_null`. -/
def ArrayBuilder.appendNull (b : ArrayBuilder) : ArrayBuilder :=
  { b with cells := b.cells ++ [none] }

/-- `as_builder_mut::<T>()` and `as_builder::<T>()`: the downcast of a boxed builder to the
builder of type `t`, whose `unwrap` panics on a builder of another type. -/
def asBuilderMut (b : ArrayBuilder) (t : DataType) : Except Panic ArrayBuilder :=
  if b.datatype = t then .ok b else .error .unwrap

/-- A finished Arrow array: its type and cells. -/
structure ArrayData where
  datatype : DataType
  cells : List (Option Datum)
  deriving DecidableEq, Repr

/-- `value(i)` of an array: the cell at `i`, or the type's default where it is null,
which is what a null slot of the value buffer holds; an index past the end fails the
array's bounds assertion. -/
def arrayValue (t : DataType) (cells : List (Option Datum)) (i : Nat) : Except Panic Datum :=
  match cells[i]? with
  | some c => .ok (c.getD t.default)
  | none => .error .outOfBounds

/-- A field of an Arrow schema. -/
structure Field where
  name : String
  datatype : DataType
  isNullable : Bool
  deriving DecidableEq, Repr

/-- An Arrow schema: its fields, and the `primary_key_index` entry of its metadata as the
number it parses to, `none` when it is absent or is not a number. -/
structure ArrowSchema where
  fields : List Field
  primaryKeyIndex : Option Nat
  deriving DecidableEq, Repr

/-- An Arrow record batch: its schema, a column per field, and its number of rows. -/
structure RecordBatch where
  schema : ArrowSchema
  columns : List ArrayData
  numRows : Nat
  deriving DecidableEq, Repr

/-- Modelled from arrow: `RecordBatch::try_new`, which needs a column per field, no null
in the column of a non-nullable field, every column as long as the first, and each column
of its field's type; the batch has as many rows as the first column. -/
def RecordBatch.tryNew (schema : ArrowSchema) (columns : List ArrayData) : Option RecordBatch :=
  match columns.head? with
  | none => none
  | some first =>
    if schema.fields.length = columns.length ∧
        (schema.fields.zip columns).all fun p =>
          (p.1.isNullable || p.2.cells.all (·.isSome)) &&
            p.2.cells.length == first.cells.length && p.1.datatype == p.2.datatype then
      some ⟨schema, columns, first.cells.length⟩
    else none

/-- Modelled from arrow: `RecordBatch::project`, the columns at the given indices, which
must all name a column. -/
def RecordBatch.project (rb : RecordBatch) (indices : List Nat) : Option RecordBatch :=
  if indices.all (· < rb.columns.length) then
    some ⟨⟨indices.filterMap (rb.schema.fields[·]?), rb.schema.primaryKeyIndex⟩,
      indices.filterMap (rb.columns[·]?), rb.numRows⟩
  else none

theorem RecordBatch.tryNew_of_fit (schema : ArrowSchema) (first : ArrayData)
    (rest : List ArrayData) (len : schema.fields.length = rest.length + 1)
    (fit : ∀ p ∈ schema.fields.zip (first :: rest),
      (p.1.isNullable = false → ∀ c ∈ p.2.cells, c.isSome) ∧
        p.2.cells.length = first.cells.length ∧ p.2.datatype = p.1.datatype) :
    RecordBatch.tryNew schema (first :: rest) =
      some ⟨schema, first :: rest, first.cells.length⟩ := by
  refine if_pos ⟨len, List.all_eq_true.mpr fun p hp => ?_⟩
  obtain ⟨nn, hlen, hdt⟩ := fit p hp
  simp only [Bool.and_eq_true, Bool.or_eq_true, beq_iff_eq, List.all_eq_true]
  refine ⟨⟨?_, hlen⟩, hdt.symm⟩
  cases h : p.1.isNullable
  exacts [Or.inr (nn h), Or.inl rfl]

end Tonbo.Record.Runtime.Arrow
