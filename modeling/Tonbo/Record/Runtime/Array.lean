/- The columns of a dynamic record batch: the builder that takes rows one by one, and the
   read of a row back from the finished arrays.
   source: src/src/record/runtime/array.rs (`DynRecordImmutableArrays::builder`,
           `DynRecordImmutableArrays::get`, `DynRecordBuilder::push`,
           `DynRecordBuilder::push_primary_key`, `DynRecordBuilder::written_size`,
           `DynRecordBuilder::finish`)
   digest: every push appends one cell to `_null`, to `_ts` and to every column builder, the
           key's value to the primary key's; `finish` turns them into a record batch, and
           `get` reads a row back, yielding each projected non-nullable column twice. -/

import Tonbo.Key
import Tonbo.Record.Runtime.Arrow

set_option autoImplicit false
set_option relaxedAutoImplicit false

namespace Tonbo.Record.Runtime.Array

open Tonbo.Key Tonbo.Record.Runtime.Arrow

/-- Modelled from the spec: `USER_COLUMN_OFFSET`, the position of the first user column,
after `_null` and `_ts`. -/
def userColumnOffset : Nat := 2

/-- Modelled from the spec: `DynRecordRef`, the columns of a record and the index of its
primary key. -/
structure DynRecordRef where
  columns : List Value
  primaryIndex : Nat
  deriving DecidableEq, Repr

/-- `DynRecordImmutableArrays`: the `_null` and `_ts` arrays, the user columns as `Value`s
holding their arrays, and the record batch. -/
structure DynRecordImmutableArrays where
  null : List Bool
  ts : List Timestamp
  columns : List Value
  recordBatch : RecordBatch
  deriving DecidableEq, Repr

/-- `DynRecordBuilder`: a builder per user column with its datatype, the `_null` bits and
`_ts` stamps pushed since the last finish, and the schema. -/
structure DynRecordBuilder where
  builders : List ArrayBuilder
  datatypes : List DataType
  null : List Bool
  ts : List Timestamp
  schema : ArrowSchema
  deriving DecidableEq, Repr

/-- `DynRecordImmutableArrays::builder`: an empty builder of each field's type after the
first two. -/
def builder (schema : ArrowSchema) : DynRecordBuilder :=
  ⟨(schema.fields.drop 2).map fun f => ⟨f.datatype, []⟩, (schema.fields.drop 2).map (·.datatype),
    [], [], schema⟩

/-! ## Pushing rows -/

/-- The arm of `push` for a column of a record, at the column's type: the builder takes
the column's value, else a null where the column is nullable, else the type's default. -/
def appendColumn (b : ArrayBuilder) (col : Value) : Except Panic ArrayBuilder := do
  let bd ← asBuilderMut b col.datatype
  match col.value.asOptional col.datatype with
  | some (some v) => pure (bd.appendValue v)
  | some none => pure (if col.isNullable then bd.appendNull else bd.appendValue col.datatype.default)
  | none => throw .unwrap

/-- The arm of `push` for a column of a tombstone: the builder of the column's datatype
takes the type's default. -/
def appendDefault (b : ArrayBuilder) (t : DataType) : Except Panic ArrayBuilder :=
  (asBuilderMut b t).map (·.appendValue t.default)

/-- The loops of `push`: the builders zipped with the record's columns, or with the
datatypes for a tombstone, as far as both go, from index `idx`; the primary key's builder
is skipped, and every other takes its item through `step`. -/
def pushZipped {α : Type} (step : ArrayBuilder → α → Except Panic ArrayBuilder)
    (primaryKeyIndex : Nat) : Nat → List ArrayBuilder → List α → Except Panic (List ArrayBuilder)
  | idx, b :: bs, x :: xs => do
    let b ← if idx = primaryKeyIndex then pure b else step b x
    let bs ← pushZipped step primaryKeyIndex (idx + 1) bs xs
    pure (b :: bs)
  | _, bs, _ => .ok bs

/-- `DynRecordBuilder::push_primary_key`: the builder at the primary key's index takes the
key's value, read at that builder's datatype. -/
def pushPrimaryKey (b : DynRecordBuilder) (key : Timestamped Value) (primaryKeyIndex : Nat) :
    Except Panic DynRecordBuilder :=
  match b.builders[primaryKeyIndex]?, b.datatypes[primaryKeyIndex]? with
  | some builder, some datatype =>
    match asBuilderMut builder datatype, key.value.value.asNative datatype with
    | .ok bd, some v => .ok { b with builders := b.builders.set primaryKeyIndex (bd.appendValue v) }
    | .error e, _ => .error e
    | .ok _, none => .error .unwrap
  | _, _ => .error .unwrap

/-- The row loop of `push`, for a record or a tombstone. -/
def pushRow (b : DynRecordBuilder) (primaryKeyIndex : Nat) :
    Option DynRecordRef → Except Panic (List ArrayBuilder)
  | some recordRef => pushZipped appendColumn primaryKeyIndex 0 b.builders recordRef.columns
  | none => pushZipped appendDefault primaryKeyIndex 0 b.builders b.datatypes

/-- `DynRecordBuilder::push`: `_null` takes whether the row is a tombstone and `_ts` its
timestamp; the key goes to the primary key's builder, found from the schema's metadata;
every other builder takes the record's column, or its type's default for a tombstone. -/
def push (b : DynRecordBuilder) (key : Timestamped Value) (row : Option DynRecordRef) :
    Except Panic DynRecordBuilder :=
  match b.schema.primaryKeyIndex with
  | none => .error .unwrap
  | some primaryKeyIndex =>
    (pushPrimaryKey { b with null := b.null ++ [row.isNone], ts := b.ts ++ [key.ts] } key
      primaryKeyIndex).bind fun b =>
      (pushRow b primaryKeyIndex row).map fun builders => { b with builders := builders }

def pushAll (b : DynRecordBuilder) :
    List (Timestamped Value × Option DynRecordRef) → Except Panic DynRecordBuilder
  | [] => .ok b
  | (key, row) :: rest => (push b key row).bind fun b => pushAll b rest

/-! ## Written size and finish -/

def valuesSize (t : DataType) (cells : List (Option Datum)) : Nat :=
  match t with
  | .uint8 | .int8 => cells.length
  | .uint16 | .int16 => 2 * cells.length
  | .uint32 | .int32 => 4 * cells.length
  | .uint64 | .int64 => 8 * cells.length
  | .string => (cells.map fun c => match c with
      | some (.string s) => s.utf8ByteSize
      | _ => 0).foldr (· + ·) 0
  | .boolean => (cells.length + 7) / 8
  | .bytes => (cells.map fun c => match c with
      | some (.bytes v) => v.length
      | _ => 0).foldr (· + ·) 0

def buildersSize : List ArrayBuilder → List DataType → Except Panic Nat
  | b :: bs, t :: ts => do
    let bd ← asBuilderMut b t
    let rest ← buildersSize bs ts
    pure (valuesSize t bd.cells + rest)
  | _, _ => .ok 0

/-- `DynRecordBuilder::written_size`: the bytes of the `_null` bits and the `u32` stamps,
and of every builder's values. -/
def writtenSize (b : DynRecordBuilder) : Except Panic Nat :=
  (buildersSize b.builders b.datatypes).map ((b.null.length + 7) / 8 + 4 * b.ts.length + ·)

/-- The loop of `finish` from index `idx`: each builder finished at its datatype into a
column named and made nullable as the field at its index past `_null` and `_ts`, and left
empty. -/
def finishColumns (schema : ArrowSchema) :
    Nat → List ArrayBuilder → List DataType →
      Except Panic (List Value × List ArrayData × List ArrayBuilder)
  | idx, b :: bs, t :: ts =>
    match schema.fields[idx + userColumnOffset]? with
    | none => .error .outOfBounds
    | some field => do
      let bd ← asBuilderMut b t
      let (columns, arrays, builders) ← finishColumns schema (idx + 1) bs ts
      pure (⟨t, field.name, .array t bd.cells, field.isNullable⟩ :: columns, ⟨t, bd.cells⟩ :: arrays,
        { bd with cells := [] } :: builders)
  | _, bs, _ => .ok ([], [], bs)

/-- The record batch of `finish`, checked by `RecordBatch::try_new` and projected to
`indices` when given. -/
def finishBatch (schema : ArrowSchema) (arrays : List ArrayData) (indices : Option (List Nat)) :
    Except Panic RecordBatch :=
  match RecordBatch.tryNew schema arrays, indices with
  | none, _ => .error (.expect "create record batch must be successful")
  | some rb, none => .ok rb
  | some rb, some indices =>
    match rb.project indices with
    | some rb => .ok rb
    | none => .error (.expect "projection indices must be successful")

/-- `DynRecordBuilder::finish`: `_null`, `_ts` and the user columns as arrays, checked into a
record batch of the schema; every builder is left empty. -/
def finish (b : DynRecordBuilder) (indices : Option (List Nat)) :
    Except Panic (DynRecordImmutableArrays × DynRecordBuilder) := do
  let (columns, arrays, builders) ← finishColumns b.schema 0 b.builders b.datatypes
  let recordBatch ← finishBatch b.schema
    (⟨.boolean, b.null.map fun n => some (.boolean n)⟩ ::
      ⟨.uint32, b.ts.map fun t => some (.uint32 t.val)⟩ :: arrays) indices
  pure (⟨b.null, b.ts, columns, recordBatch⟩, { b with builders := builders, null := [], ts := [] })

/-! ## Reading a row back -/

/-- The loop of `get` from index `idx`: a column whose leaf the mask includes and that is
not nullable yields its value at `offset`, marked nullable, and then the column itself;
every other column yields itself. -/
def getColumns (offset : Nat) (projectionMask : Nat → Bool) :
    Nat → List Value → Except Panic (List Value)
  | _, [] => .ok []
  | idx, col :: cols => do
    let here ← if projectionMask (idx + userColumnOffset) && !col.isNullable then
        match col.value.asArray col.datatype with
        | some cells => (arrayValue col.datatype cells offset).map fun value =>
            [⟨col.datatype, col.name, .native value, true⟩, col]
        | none => .error .unwrap
      else .ok [col]
    let rest ← getColumns offset projectionMask (idx + 1) cols
    pure (here ++ rest)

/-- `DynRecordImmutableArrays::get`: nothing past the last row, `Some(None)` for a tombstone,
and otherwise a record of the columns the loop yields. -/
def get (a : DynRecordImmutableArrays) (offset : Nat) (projectionMask : Nat → Bool) :
    Except Panic (Option (Option DynRecordRef)) :=
  if a.null.length ≤ offset then .ok none
  else if a.null.getD offset false then .ok (some none)
  else (getColumns offset projectionMask 0 a.columns).map fun columns => some (some ⟨columns, 2⟩)

/-! ## Rows that fit the schema -/

/-- Modelled from the spec: the Arrow schema of a dynamic record's batches, `_null` and
`_ts` and then the user columns in declaration order, with the index of the primary key
among the user columns as the `primary_key_index` of its metadata. -/
def dynSchema (columns : List Field) (primaryIndex : Nat) : ArrowSchema :=
  ⟨⟨"_null", .boolean, false⟩ :: ⟨"_ts", .uint32, false⟩ :: columns, some primaryIndex⟩

theorem dynSchema_user_field (columns : List Field) (primaryIndex j : Nat) :
    (dynSchema columns primaryIndex).fields[0 + userColumnOffset + j]? = columns[j]? := by
  rw [show 0 + userColumnOffset + j = j + 1 + 1 by unfold userColumnOffset; omega]
  simp [dynSchema]

def fieldAdmits (f : Field) (col : Value) : Bool :=
  col.datatype == f.datatype && match col.value with
    | .optional t c => t == f.datatype && c.all (·.datatype == f.datatype) && (c.isSome || f.isNullable)
    | _ => false

def itemsFit {α : Type} (admits : Field → α → Bool) (primaryIndex : Nat) :
    Nat → List Field → List α → Bool
  | idx, f :: fs, x :: xs =>
    (idx == primaryIndex || admits f x) && itemsFit admits primaryIndex (idx + 1) fs xs
  | _, [], [] => true
  | _, _, _ => false

/-- A row fits the user columns: its key holds a value of the primary key's type, and a
record has a column per user column, each but the primary key's admitted by its field. -/
def rowFits (columns : List Field) (primaryIndex : Nat) (key : Timestamped Value)
    (row : Option DynRecordRef) : Bool :=
  (match columns[primaryIndex]? with
    | some f => (key.value.value.asNative f.datatype).isSome
    | none => false) &&
    row.all fun r => itemsFit fieldAdmits primaryIndex 0 columns r.columns

def keyCells (columns : List Field) (primaryIndex : Nat)
    (rows : List (Timestamped Value × Option DynRecordRef)) : List (Option Datum) :=
  rows.map fun r => columns[primaryIndex]?.bind fun f => r.1.value.value.asNative f.datatype

/-- The builders fit the fields from index `idx` on: one per field, of its type, with no
null where the field is not nullable; the primary key's holds the cells `keys`, and every
other `n` cells. -/
def Fitted (primaryIndex : Nat) (keys : List (Option Datum)) (n : Nat) :
    Nat → List Field → List ArrayBuilder → Prop
  | idx, f :: fs, b :: bs =>
    b.datatype = f.datatype ∧ (f.isNullable = false → ∀ c ∈ b.cells, c.isSome) ∧
      (if idx = primaryIndex then b.cells = keys else b.cells.length = n) ∧
      Fitted primaryIndex keys n (idx + 1) fs bs
  | _, [], [] => True
  | _, _, _ => False

/-- The builder after pushing `rows` since its creation or last finish: the schema and
datatypes it was built with, `_null` and `_ts` the rows' tombstone bits and stamps, and a
builder per user column holding a cell per row, the keys' values in the primary key's. -/
structure Aligned (columns : List Field) (primaryIndex : Nat)
    (rows : List (Timestamped Value × Option DynRecordRef)) (b : DynRecordBuilder) : Prop where
  schema : b.schema = dynSchema columns primaryIndex
  datatypes : b.datatypes = columns.map (·.datatype)
  null : b.null = rows.map (·.2.isNone)
  ts : b.ts = rows.map (·.1.ts)
  builders : Fitted primaryIndex (keyCells columns primaryIndex rows) rows.length 0 columns b.builders

/-! ## Pushing keeps the builders aligned with the rows -/

section Alignment

variable {pk : Nat}

private theorem fitted_empty (pk idx : Nat) (columns : List Field) :
    Fitted pk [] 0 idx columns (columns.map fun f => ⟨f.datatype, []⟩) := by
  induction columns generalizing idx with
  | nil => trivial
  | cons f fs ih => exact ⟨rfl, by simp, by split <;> rfl, ih _⟩

theorem aligned_builder (columns : List Field) (pk : Nat) :
    Aligned columns pk [] (builder (dynSchema columns pk)) :=
  ⟨rfl, rfl, rfl, rfl, fitted_empty pk 0 columns⟩

private theorem Fitted.keys_irrel {keys keys' : List (Option Datum)} {n : Nat} (fs : List Field) :
    ∀ {idx : Nat} {bs : List ArrayBuilder}, Fitted pk keys n idx fs bs → pk < idx →
      Fitted pk keys' n idx fs bs := by
  induction fs with
  | nil => intro idx bs h _; cases bs <;> exact h
  | cons f fs ih =>
    intro idx bs h hlt
    cases bs with
    | nil => exact h.elim
    | cons b bs =>
      obtain ⟨hdt, hnn, hcell, hrest⟩ := h
      exact ⟨hdt, hnn, by rwa [if_neg (by omega)] at hcell ⊢, ih hrest (by omega)⟩

private theorem cells_length_of_fitted {keys : List (Option Datum)} {n idx : Nat} {b : ArrayBuilder}
    (hkeys : keys.length = n) (h : if idx = pk then b.cells = keys else b.cells.length = n) :
    b.cells.length = n := by
  split at h
  · rw [h, hkeys]
  · exact h

theorem Fitted.datatypes {keys : List (Option Datum)} {n : Nat} (fs : List Field) :
    ∀ {idx : Nat} {bs : List ArrayBuilder}, Fitted pk keys n idx fs bs →
      bs.map (·.datatype) = fs.map (·.datatype) := by
  induction fs with
  | nil => intro idx bs h; cases bs <;> first | rfl | exact h.elim
  | cons f fs ih =>
    intro idx bs h
    cases bs with
    | nil => exact h.elim
    | cons b bs => simp [h.1, ih h.2.2.2]

theorem Fitted.cells {keys : List (Option Datum)} {n : Nat} (hkeys : keys.length = n)
    (fs : List Field) : ∀ {idx : Nat} {bs : List ArrayBuilder}, Fitted pk keys n idx fs bs →
      ∀ c ∈ bs, c.cells.length = n := by
  induction fs with
  | nil => intro idx bs h; cases bs <;> first | exact h.elim | simp
  | cons f fs ih =>
    intro idx bs h
    cases bs with
    | nil => exact h.elim
    | cons b bs =>
      intro c hc
      rcases List.mem_cons.mp hc with rfl | hc
      exacts [cells_length_of_fitted hkeys h.2.2.1, ih h.2.2.2 c hc]

private theorem Fitted.primary_cells {keys : List (Option Datum)} {n : Nat} {c : ArrayBuilder}
    (fs : List Field) : ∀ {idx : Nat} {bs : List ArrayBuilder} {j : Nat},
      Fitted pk keys n idx fs bs → idx + j = pk → bs[j]? = some c → c.cells = keys := by
  induction fs with
  | nil => intro idx bs j h _ hc; cases bs <;> first | cases hc | exact h.elim
  | cons f fs ih =>
    intro idx bs j h hj hc
    cases bs with
    | nil => cases hc
    | cons b bs =>
      obtain ⟨_, _, hcell, hrest⟩ := h
      cases j with
      | zero =>
        rw [List.getElem?_cons_zero, Option.some.injEq] at hc
        subst hc
        rwa [if_pos (by omega)] at hcell
      | succ j =>
        rw [List.getElem?_cons_succ] at hc
        exact ih hrest (by omega) hc

private theorem Fitted.get_primary {keys : List (Option Datum)} {n idx j : Nat} {f : Field}
    {fs : List Field} {bs : List ArrayBuilder} (h : Fitted pk keys n idx fs bs) (hj : idx + j = pk)
    (hf : fs[j]? = some f) : ∃ b, bs[j]? = some b ∧ b.datatype = f.datatype ∧ b.cells = keys := by
  have hdt := congrArg (·[j]?) (h.datatypes _)
  simp only [List.getElem?_map, hf, Option.map_some'] at hdt
  obtain ⟨b, hb, hbdt⟩ := Option.map_eq_some'.mp hdt
  exact ⟨b, hb, hbdt, h.primary_cells _ hj hb⟩

private theorem Fitted.set_primary {keys : List (Option Datum)} {n : Nat} {v : Datum} {f : Field}
    {b : ArrayBuilder} (fs : List Field) :
    ∀ {idx : Nat} {bs : List ArrayBuilder} {j : Nat}, Fitted pk keys n idx fs bs → idx + j = pk →
      fs[j]? = some f → bs[j]? = some b →
        Fitted pk (keys ++ [some v]) n idx fs (bs.set j (b.appendValue v)) := by
  induction fs with
  | nil => intro idx bs j _ _ hf; cases hf
  | cons f' fs ih =>
    intro idx bs j h hj hf hb
    cases bs with
    | nil => exact h.elim
    | cons b' bs =>
      obtain ⟨hdt, hnn, hcell, hrest⟩ := h
      cases j with
      | zero =>
        rw [List.getElem?_cons_zero, Option.some.injEq] at hf hb
        subst hf hb
        refine ⟨hdt, fun h c hc => ?_, ?_, hrest.keys_irrel _ (by omega)⟩
        · rcases List.mem_append.mp hc with hc | hc
          exacts [hnn h c hc, by rw [List.mem_singleton.mp hc]; rfl]
        · rw [if_pos (by omega)] at hcell ⊢
          simp [ArrayBuilder.appendValue, hcell]
      | succ j =>
        rw [List.getElem?_cons_succ] at hf hb
        exact ⟨hdt, hnn, by rwa [if_neg (by omega)] at hcell ⊢, ih hrest (by omega) hf hb⟩

private theorem pushPrimaryKey_ok (b : DynRecordBuilder) {columns : List Field}
    {keys : List (Option Datum)} {n : Nat} {key : Timestamped Value} {f : Field} {v : Datum}
    (fitted : Fitted pk keys n 0 columns b.builders)
    (datatypes : b.datatypes = columns.map (·.datatype)) (hf : columns[pk]? = some f)
    (hv : key.value.value.asNative f.datatype = some v) :
    ∃ bs, pushPrimaryKey b key pk = .ok { b with builders := bs } ∧
      Fitted pk (keys ++ [some v]) n 0 columns bs := by
  obtain ⟨bd, hbd, hdt, -⟩ := fitted.get_primary (Nat.zero_add pk) hf
  have hdts : b.datatypes[pk]? = some f.datatype := by simp [datatypes, hf]
  refine ⟨_, ?_, fitted.set_primary _ (Nat.zero_add pk) hf hbd⟩
  simp only [pushPrimaryKey, hbd, hdts, asBuilderMut, if_pos hdt, hv]

private theorem pushZipped_fitted {α : Type} {step : ArrayBuilder → α → Except Panic ArrayBuilder}
    (admits : Field → α → Bool)
    (hstep : ∀ {f : Field} {b : ArrayBuilder} {x : α}, b.datatype = f.datatype →
      (f.isNullable = false → ∀ c ∈ b.cells, c.isSome) → admits f x = true →
      ∃ c, step b x = .ok { b with cells := b.cells ++ [c] } ∧ (f.isNullable = false → c.isSome))
    {keys : List (Option Datum)} {n : Nat} (fs : List Field) :
    ∀ {idx : Nat} {bs : List ArrayBuilder} {xs : List α}, Fitted pk keys n idx fs bs →
      itemsFit admits pk idx fs xs = true →
        ∃ bs', pushZipped step pk idx bs xs = .ok bs' ∧ Fitted pk keys (n + 1) idx fs bs' := by
  induction fs with
  | nil =>
    intro idx bs xs h _
    cases bs with
    | nil => exact ⟨[], by cases xs <;> rfl, trivial⟩
    | cons => exact h.elim
  | cons f fs ih =>
    intro idx bs xs h hfit
    cases bs with
    | nil => exact h.elim
    | cons b bs =>
      cases xs with
      | nil => cases hfit
      | cons x xs =>
        obtain ⟨hdt, hnn, hcell, hrest⟩ := h
        simp only [itemsFit, Bool.and_eq_true, Bool.or_eq_true, beq_iff_eq] at hfit
        obtain ⟨hhere, hfit⟩ := hfit
        obtain ⟨bs', hbs', hfit'⟩ := ih hrest hfit
        by_cases hpk : idx = pk
        · refine ⟨b :: bs', by rw [pushZipped, if_pos hpk, hbs']; rfl, hdt, hnn, ?_, hfit'⟩
          rwa [if_pos hpk] at hcell ⊢
        · obtain ⟨c, hc, hcnn⟩ := hstep hdt hnn (hhere.resolve_left hpk)
          refine ⟨{ b with cells := b.cells ++ [c] } :: bs',
            by rw [pushZipped, if_neg hpk, hc, hbs']; rfl, hdt, fun h c' hc' => ?_, ?_, hfit'⟩
          · rcases List.mem_append.mp hc' with hc' | hc'
            exacts [hnn h c' hc', List.mem_singleton.mp hc' ▸ hcnn h]
          · rw [if_neg hpk] at hcell ⊢
            simp [hcell]

private theorem appendColumn_cell {f : Field} {b : ArrayBuilder} {col : Value}
    (hdt : b.datatype = f.datatype) (hadm : fieldAdmits f col = true) :
    ∃ c, appendColumn b col = .ok { b with cells := b.cells ++ [c] } ∧
      (f.isNullable = false → c.isSome) := by
  obtain ⟨t, name, value, nullable⟩ := col
  cases value with
  | optional t' c =>
    simp only [fieldAdmits, Bool.and_eq_true, beq_iff_eq, Bool.or_eq_true] at hadm
    obtain ⟨rfl, ⟨rfl, hall⟩, hnull⟩ := hadm
    have cast : Payload.asOptional f.datatype (.optional f.datatype c) = some c := by
      cases c <;> simp_all [Payload.asOptional]
    cases c with
    | some v =>
      exact ⟨some v, by simp only [appendColumn, asBuilderMut, if_pos hdt, cast]; rfl, fun _ => rfl⟩
    | none =>
      have fieldNullable : f.isNullable = true := by simpa using hnull
      refine ⟨if nullable then none else some f.datatype.default, ?_,
        fun h => absurd fieldNullable (by simp [h])⟩
      cases nullable <;> (simp only [appendColumn, asBuilderMut, if_pos hdt, cast]; rfl)
  | native _ => simp [fieldAdmits] at hadm
  | array _ _ => simp [fieldAdmits] at hadm

private theorem appendDefault_cell {f : Field} {b : ArrayBuilder} {t : DataType}
    (hdt : b.datatype = f.datatype) (ht : (t == f.datatype) = true) :
    ∃ c, appendDefault b t = .ok { b with cells := b.cells ++ [c] } ∧
      (f.isNullable = false → c.isSome) := by
  rw [beq_iff_eq] at ht
  exact ⟨some t.default,
    by simp only [appendDefault, asBuilderMut, if_pos (hdt.trans ht.symm)]; rfl, fun _ => rfl⟩

private theorem itemsFit_datatypes (pk : Nat) (columns : List Field) : ∀ idx,
    itemsFit (fun f t => t == f.datatype) pk idx columns (columns.map (·.datatype)) = true := by
  induction columns with
  | nil => intro; rfl
  | cons f fs ih => intro idx; simp [itemsFit, ih]

theorem push_aligned {columns : List Field} {rows : List (Timestamped Value × Option DynRecordRef)}
    {b : DynRecordBuilder} {key : Timestamped Value} {row : Option DynRecordRef}
    (aligned : Aligned columns pk rows b) (fits : rowFits columns pk key row = true) :
    ∃ b', push b key row = .ok b' ∧ Aligned columns pk (rows ++ [(key, row)]) b' := by
  simp only [rowFits, Bool.and_eq_true] at fits
  obtain ⟨hkey, hrow⟩ := fits
  cases hf : columns[pk]? with
  | none => rw [hf] at hkey; cases hkey
  | some f =>
    rw [hf] at hkey
    obtain ⟨v, hv⟩ := Option.isSome_iff_exists.mp hkey
    obtain ⟨bs, hpk, hfit⟩ := pushPrimaryKey_ok
      { b with null := b.null ++ [row.isNone], ts := b.ts ++ [key.ts] }
      aligned.builders aligned.datatypes hf hv
    have keys :
        keyCells columns pk (rows ++ [(key, row)]) = keyCells columns pk rows ++ [some v] := by
      simp [keyCells, hf, hv]
    obtain ⟨bs', hloop, hfit'⟩ : ∃ bs', pushRow
        { b with null := b.null ++ [row.isNone], ts := b.ts ++ [key.ts], builders := bs } pk row =
          .ok bs' ∧
        Fitted pk (keyCells columns pk rows ++ [some v]) (rows.length + 1) 0 columns bs' := by
      cases row with
      | none =>
        exact pushZipped_fitted (fun f t => t == f.datatype)
          (fun hdt _ ht => appendDefault_cell hdt ht) _ hfit
          (by rw [aligned.datatypes]; exact itemsFit_datatypes pk columns 0)
      | some r =>
        exact pushZipped_fitted fieldAdmits (fun hdt _ hadm => appendColumn_cell hdt hadm) _ hfit
          (by simpa using hrow)
    refine ⟨{ b with builders := bs', null := b.null ++ [row.isNone], ts := b.ts ++ [key.ts] }, ?_,
      ⟨aligned.schema, aligned.datatypes, by simp [aligned.null], by simp [aligned.ts],
      by rw [keys, List.length_append, List.length_singleton]; exact hfit'⟩⟩
    have hsch : b.schema.primaryKeyIndex = some pk := by rw [aligned.schema]; rfl
    rw [push, hsch]
    dsimp only
    rw [hpk]
    show (pushRow _ pk row).map _ = _
    rw [hloop]
    rfl

theorem pushAll_aligned {columns : List Field}
    (todo : List (Timestamped Value × Option DynRecordRef)) :
    ∀ {rows : List (Timestamped Value × Option DynRecordRef)} {b : DynRecordBuilder},
      Aligned columns pk rows b → (∀ r ∈ todo, rowFits columns pk r.1 r.2 = true) →
        ∃ b', pushAll b todo = .ok b' ∧ Aligned columns pk (rows ++ todo) b' := by
  induction todo with
  | nil => intro rows b h _; exact ⟨b, rfl, by simpa using h⟩
  | cons r rest ih =>
    intro rows b h fits
    obtain ⟨key, row⟩ := r
    obtain ⟨b₁, h₁, a₁⟩ := push_aligned h (fits _ (List.mem_cons_self _ _))
    obtain ⟨b₂, h₂, a₂⟩ := ih a₁ fun r' hr' => fits r' (List.mem_cons_of_mem _ hr')
    exact ⟨b₂, by simp [pushAll, h₁, h₂, Except.bind], by simpa using a₂⟩

private theorem finishColumns_fitted (schema : ArrowSchema) {keys : List (Option Datum)} {n : Nat}
    (hkeys : keys.length = n) (fs : List Field) :
    ∀ {idx : Nat} {bs : List ArrayBuilder}, Fitted pk keys n idx fs bs →
      (∀ j, schema.fields[idx + userColumnOffset + j]? = fs[j]?) →
      ∃ cols arrays, finishColumns schema idx bs (fs.map (·.datatype)) =
          .ok (cols, arrays, fs.map fun f => ⟨f.datatype, []⟩) ∧ arrays.length = fs.length ∧
        ∀ p ∈ fs.zip arrays, (p.1.isNullable = false → ∀ c ∈ p.2.cells, c.isSome) ∧
          p.2.cells.length = n ∧ p.2.datatype = p.1.datatype := by
  induction fs with
  | nil =>
    intro idx bs h _
    cases bs with
    | nil => exact ⟨[], [], rfl, rfl, by simp⟩
    | cons => exact h.elim
  | cons f fs ih =>
    intro idx bs h hfields
    cases bs with
    | nil => exact h.elim
    | cons b bs =>
      obtain ⟨hdt, hnn, hcell, hrest⟩ := h
      have hfield : schema.fields[idx + userColumnOffset]? = some f := by simpa using hfields 0
      obtain ⟨cols, arrays, hrun, hlen, hfit⟩ := ih hrest fun j => by
        rw [show idx + 1 + userColumnOffset + j = idx + userColumnOffset + (j + 1) by omega,
          hfields, List.getElem?_cons_succ]
      have hcells : b.cells.length = n := cells_length_of_fitted hkeys hcell
      refine ⟨⟨f.datatype, f.name, .array f.datatype b.cells, f.isNullable⟩ :: cols,
        ⟨f.datatype, b.cells⟩ :: arrays, ?_, by simp [hlen], fun p hp => ?_⟩
      · simp only [List.map_cons, finishColumns, hfield, asBuilderMut, if_pos hdt, hrun]
        obtain ⟨_, _⟩ := b
        subst hdt
        rfl
      · rcases List.mem_cons.mp hp with rfl | hp
        exacts [⟨hnn, hcells, rfl⟩, hfit p hp]

private theorem Aligned.emptied {columns : List Field}
    {rows : List (Timestamped Value × Option DynRecordRef)} {b : DynRecordBuilder}
    (aligned : Aligned columns pk rows b) :
    { b with builders := columns.map fun f => ⟨f.datatype, []⟩, null := [], ts := [] } =
      builder (dynSchema columns pk) := by
  obtain ⟨_, _, _, _, _⟩ := b
  obtain ⟨rfl, rfl, -, -, -⟩ := aligned
  rfl

private theorem finishBatch_ne_create {schema : ArrowSchema} {arrays : List ArrayData}
    {rb : RecordBatch} (h : RecordBatch.tryNew schema arrays = some rb)
    (indices : Option (List Nat)) :
    finishBatch schema arrays indices ≠
      .error (.expect "create record batch must be successful") := by
  unfold finishBatch
  rw [h]
  rcases indices with _ | indices
  · simp
  · dsimp only
    split <;> simp

private theorem finishBatch_none {schema : ArrowSchema} {arrays : List ArrayData} {rb : RecordBatch}
    (h : RecordBatch.tryNew schema arrays = some rb) :
    finishBatch schema arrays none = .ok rb := by
  unfold finishBatch
  rw [h]

theorem finish_aligned {columns : List Field}
    {rows : List (Timestamped Value × Option DynRecordRef)} {b : DynRecordBuilder}
    (aligned : Aligned columns pk rows b) :
    (∃ arrays, finish b none = .ok (arrays, builder (dynSchema columns pk)) ∧
      arrays.recordBatch.numRows = rows.length) ∧
    ∀ indices, finish b indices ≠ .error (.expect "create record batch must be successful") := by
  obtain ⟨cols, arrays, hcols, hlen, hfit⟩ := finishColumns_fitted b.schema
    (by simp [keyCells]) columns aligned.builders fun j => by
      rw [aligned.schema, dynSchema_user_field]
  rw [← aligned.datatypes] at hcols
  have htry := RecordBatch.tryNew_of_fit b.schema
    ⟨.boolean, b.null.map fun n => some (.boolean n)⟩
    (⟨.uint32, b.ts.map fun t => some (.uint32 t.val)⟩ :: arrays)
    (by simp [aligned.schema, dynSchema, hlen]) fun p hp => by
      rw [aligned.schema] at hp
      simp only [dynSchema, List.zip_cons_cons, List.mem_cons] at hp
      rcases hp with rfl | rfl | hp
      · exact ⟨fun _ c hc => by obtain ⟨_, _, rfl⟩ := List.mem_map.mp hc; rfl, rfl, rfl⟩
      · exact ⟨fun _ c hc => by obtain ⟨_, _, rfl⟩ := List.mem_map.mp hc; rfl,
          by simp [aligned.null, aligned.ts], rfl⟩
      · obtain ⟨nn, hl, hdt⟩ := hfit p hp
        exact ⟨nn, by simp [hl, aligned.null], hdt⟩
  have run : ∀ indices, finish b indices = (finishBatch b.schema
      (⟨.boolean, b.null.map fun n => some (.boolean n)⟩ ::
        ⟨.uint32, b.ts.map fun t => some (.uint32 t.val)⟩ :: arrays) indices).bind fun rb =>
      pure (⟨b.null, b.ts, cols, rb⟩,
        { b with builders := columns.map fun f => ⟨f.datatype, []⟩, null := [], ts := [] }) :=
      fun indices => by
    simp only [finish, hcols]
    rfl
  refine ⟨⟨_, by rw [run, finishBatch_none htry, aligned.emptied]; rfl,
    by simp [aligned.null]⟩, fun indices h => finishBatch_ne_create htry indices ?_⟩
  rw [run] at h
  cases hb : finishBatch b.schema _ indices <;> rw [hb] at h
  · injection h with h
    rw [h]
  · cases h

/-- An empty builder has no bytes of values, whatever its type. -/
@[simp] theorem valuesSize_nil (t : DataType) : valuesSize t [] = 0 := by
  cases t <;> rfl

private theorem buildersSize_ok : ∀ (bs : List ArrayBuilder) (ts : List DataType),
    bs.map (·.datatype) = ts → ∃ k, buildersSize bs ts = .ok k
  | [], [], _ => ⟨0, rfl⟩
  | [], _ :: _, h => by cases h
  | _ :: _, [], h => by cases h
  | b :: bs, t :: ts, h => by
    obtain ⟨hb, hbs⟩ := List.cons.inj h
    obtain ⟨k, hk⟩ := buildersSize_ok bs ts hbs
    exact ⟨valuesSize t b.cells + k, by simp only [buildersSize, asBuilderMut, if_pos hb, hk]; rfl⟩

private theorem buildersSize_empty (fs : List Field) :
    buildersSize (fs.map fun f => ⟨f.datatype, []⟩) (fs.map (·.datatype)) = .ok 0 := by
  induction fs with
  | nil => rfl
  | cons f fs ih =>
    simp only [List.map_cons, buildersSize, asBuilderMut, ite_true, ih]
    exact congrArg Except.ok (valuesSize_nil f.datatype)

private theorem writtenSize_builder (columns : List Field) (pk : Nat) :
    writtenSize (builder (dynSchema columns pk)) = .ok 0 := by
  show (buildersSize (columns.map fun f => ⟨f.datatype, []⟩) (columns.map (·.datatype))).map
    ((0 + 7) / 8 + 4 * 0 + ·) = .ok 0
  rw [buildersSize_empty]
  rfl

private theorem writtenSize_aligned {columns : List Field}
    {rows : List (Timestamped Value × Option DynRecordRef)} {b : DynRecordBuilder}
    (aligned : Aligned columns pk rows b) :
    ∃ size, writtenSize b = .ok size ∧ (rows.length + 7) / 8 ≤ size := by
  obtain ⟨k, hk⟩ := buildersSize_ok b.builders b.datatypes
    (by rw [aligned.datatypes]; exact aligned.builders.datatypes _)
  refine ⟨(b.null.length + 7) / 8 + 4 * b.ts.length + k, by rw [writtenSize, hk]; rfl, ?_⟩
  rw [aligned.null, List.length_map]
  omega

end Alignment


/-- Rows that fit the user columns, pushed into a fresh builder, leave `_null` and `_ts`
with a bit and a stamp per row and every user column's builder of its type with a value per
row, the keys' values in the primary key's; `finish` then checks them into a record batch
of as many rows, never failing in `RecordBatch::try_new` whatever the projection, and leaves
the fresh builder. -/
theorem pushAll_finish_aligned (columns : List Field) (pk : Nat)
    (rows : List (Timestamped Value × Option DynRecordRef))
    (fits : ∀ r ∈ rows, rowFits columns pk r.1 r.2 = true) :
    ∃ b, pushAll (builder (dynSchema columns pk)) rows = .ok b ∧
      b.null = rows.map (·.2.isNone) ∧ b.ts = rows.map (·.1.ts) ∧
      b.builders.map (·.datatype) = columns.map (·.datatype) ∧
      (∀ c ∈ b.builders, c.cells.length = rows.length) ∧
      (∀ c, b.builders[pk]? = some c → c.cells = keyCells columns pk rows) ∧
      (∃ arrays, finish b none = .ok (arrays, builder (dynSchema columns pk)) ∧
        arrays.recordBatch.numRows = rows.length) ∧
      ∀ indices, finish b indices ≠ .error (.expect "create record batch must be successful") := by
  obtain ⟨b, hpush, aligned⟩ := pushAll_aligned rows (aligned_builder columns pk) fits
  rw [List.nil_append] at aligned
  exact ⟨b, hpush, aligned.null, aligned.ts, aligned.builders.datatypes _,
    aligned.builders.cells (by simp [keyCells]) _,
    fun _ hc => aligned.builders.primary_cells _ (Nat.zero_add pk) hc, finish_aligned aligned⟩

/-- `written_size` of the builder after pushing rows that fit is zero exactly when no row
was pushed, and zero on the builder `finish` leaves: the conditions `build_tables` places on
its builder's size. -/
theorem writtenSize_pushAll_finish (columns : List Field) (pk : Nat)
    (rows : List (Timestamped Value × Option DynRecordRef))
    (fits : ∀ r ∈ rows, rowFits columns pk r.1 r.2 = true) :
    ∃ b size, pushAll (builder (dynSchema columns pk)) rows = .ok b ∧
      writtenSize b = .ok size ∧ (size = 0 ↔ rows = []) ∧
      ∀ arrays b', finish b none = .ok (arrays, b') → writtenSize b' = .ok 0 := by
  obtain ⟨b, hpush, aligned⟩ := pushAll_aligned rows (aligned_builder columns pk) fits
  rw [List.nil_append] at aligned
  obtain ⟨size, hsize, hlow⟩ := writtenSize_aligned aligned
  have finished : ∀ arrays b', finish b none = .ok (arrays, b') → writtenSize b' = .ok 0 := by
    intro arrays b' h
    obtain ⟨⟨_, hfinish, -⟩, -⟩ := finish_aligned aligned
    rw [hfinish] at h
    injection h with h
    rw [← (Prod.mk.inj h).2]
    exact writtenSize_builder columns pk
  refine ⟨b, size, hpush, hsize, ⟨fun h0 => ?_, fun h => ?_⟩, finished⟩
  · rcases rows with _ | ⟨r, rest⟩
    · rfl
    · rw [List.length_cons] at hlow
      omega
  · subst h
    injection hpush with hb
    rw [← hb, writtenSize_builder] at hsize
    injection hsize with hsize
    exact hsize.symm

def idColumns : List Field := [⟨"id", .int32, false⟩, ⟨"v", .int32, true⟩]

def idRows : List (Timestamped Value × Option DynRecordRef) :=
  [(⟨⟨.int32, "id", .native (.int32 1), false⟩, ⟨0⟩⟩,
      some ⟨[⟨.int32, "id", .optional .int32 (some (.int32 1)), false⟩,
        ⟨.int32, "v", .optional .int32 (some (.int32 7)), true⟩], 0⟩),
    (⟨⟨.int32, "id", .native (.int32 2), false⟩, ⟨1⟩⟩, none)]

theorem pushAll_finish_aligned_of_id_rows :
    (∀ r ∈ idRows, rowFits idColumns 0 r.1 r.2 = true) ∧
      ∃ b, pushAll (builder (dynSchema idColumns 0)) idRows = .ok b ∧
        b.null = idRows.map (·.2.isNone) ∧ b.ts = idRows.map (·.1.ts) ∧
        b.builders.map (·.datatype) = idColumns.map (·.datatype) ∧
        (∀ c ∈ b.builders, c.cells.length = idRows.length) ∧
        (∀ c, b.builders[0]? = some c → c.cells = keyCells idColumns 0 idRows) ∧
        (∃ arrays, finish b none = .ok (arrays, builder (dynSchema idColumns 0)) ∧
          arrays.recordBatch.numRows = idRows.length) ∧
        ∀ indices, finish b indices ≠ .error (.expect "create record batch must be successful") :=
  ⟨by decide, pushAll_finish_aligned idColumns 0 idRows (by decide)⟩

theorem writtenSize_pushAll_finish_of_id_rows :
    (∀ r ∈ idRows, rowFits idColumns 0 r.1 r.2 = true) ∧
      ∃ b size, pushAll (builder (dynSchema idColumns 0)) idRows = .ok b ∧
        writtenSize b = .ok size ∧ (size = 0 ↔ idRows = []) ∧
        ∀ arrays b', finish b none = .ok (arrays, b') → writtenSize b' = .ok 0 :=
  ⟨by decide, writtenSize_pushAll_finish idColumns 0 idRows (by decide)⟩

end Tonbo.Record.Runtime.Array
