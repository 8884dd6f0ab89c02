/- Reading rows back from the arrays of a finished dynamic record builder.
   source: src/src/record/runtime/array.rs (`DynRecordImmutableArrays::get`,
           `DynRecordBuilder::push`, `DynRecordBuilder::finish`)
   digest: each user column's array holds the cells the pushes appended to it, and `get`
           reads a record back from them, a projected non-nullable column first as the
           value of its cell and then as the whole column. -/

import Tonbo.Record.Runtime.Array

set_option autoImplicit false
set_option relaxedAutoImplicit false

namespace Tonbo.Record.Runtime.RoundTrip

open Tonbo.Key Tonbo.Record.Runtime.Arrow Tonbo.Record.Runtime.Array

/-! ## The cells a push appends -/

def columnCell (col : Value) : Option Datum :=
  match col.value.asOptional col.datatype with
  | some (some v) => some v
  | _ => if col.isNullable then none else some col.datatype.default

def pushedCell (columns : List Field) (pk j : Nat)
    (row : Timestamped Value × Option DynRecordRef) : Option Datum :=
  if j = pk then columns[pk]?.bind fun f => row.1.value.value.asNative f.datatype
  else match row.2, columns[j]? with
    | some r, _ => r.columns[j]?.bind columnCell
    | none, some f => some f.datatype.default
    | none, none => none

def pushedColumn (columns : List Field) (pk : Nat)
    (rows : List (Timestamped Value × Option DynRecordRef)) (j : Nat) (f : Field) : Value :=
  ⟨f.datatype, f.name, .array f.datatype (rows.map (pushedCell columns pk j)), f.isNullable⟩

/-- The columns `get` reads back for `row` from the batch of `rows`, user column by user
column: a projected column that is not nullable gives the cell the row pushed to it, as a
value marked nullable, before the whole column; every column gives the whole column. -/
def readBack (columns : List Field) (pk : Nat)
    (rows : List (Timestamped Value × Option DynRecordRef))
    (row : Timestamped Value × Option DynRecordRef) (projectionMask : Nat → Bool) : List Value :=
  columns.enum.flatMap fun p =>
    (if projectionMask (p.1 + userColumnOffset) && !p.2.isNullable then
      [⟨p.2.datatype, p.2.name,
        .native ((pushedCell columns pk p.1 row).getD p.2.datatype.default), true⟩]
    else []) ++ [pushedColumn columns pk rows p.1 p.2]

/-! ## Every push appends those cells -/

section Loading

variable {pk : Nat}

private theorem appendColumn_eq {b b' : ArrayBuilder} {col : Value} (h : appendColumn b col = .ok b') :
    b' = { b with cells := b.cells ++ [columnCell col] } := by
  obtain ⟨bd, hbd, h⟩ := bind_eq_ok.mp h
  unfold asBuilderMut at hbd
  split at hbd
  · cases hbd
    unfold columnCell
    split at h <;> rename_i heq <;> rw [heq]
    · cases h; rfl
    · cases h; cases col.isNullable <;> rfl
    · cases h
  · cases hbd

private theorem appendDefault_eq {b b' : ArrayBuilder} {t : DataType} (h : appendDefault b t = .ok b') :
    b' = { b with cells := b.cells ++ [some t.default] } := by
  obtain ⟨bd, hbd, rfl⟩ := map_eq_ok.mp h
  unfold asBuilderMut at hbd
  split at hbd
  · cases hbd; rfl
  · cases hbd

private theorem pushZipped_eq {α : Type} {step : ArrayBuilder → α → Except Panic ArrayBuilder}
    {cell : α → Option Datum}
    (hstep : ∀ (b b' : ArrayBuilder) (x : α), step b x = .ok b' →
      b' = { b with cells := b.cells ++ [cell x] }) :
    ∀ {idx : Nat} {bs : List ArrayBuilder} {xs : List α} {bs' : List ArrayBuilder},
      pushZipped step pk idx bs xs = .ok bs' → bs'.length = bs.length ∧
        ∀ j b x, bs[j]? = some b → xs[j]? = some x →
          bs'[j]? = some (if idx + j = pk then b else { b with cells := b.cells ++ [cell x] }) := by
  intro idx bs
  induction bs generalizing idx with
  | nil => intro xs bs' h; cases xs <;> (cases h; exact ⟨rfl, fun j b x hb => by cases hb⟩)
  | cons b bs ih =>
    intro xs bs' h
    cases xs with
    | nil => cases h; exact ⟨rfl, fun j b x _ hx => by cases hx⟩
    | cons x xs =>
      rw [pushZipped] at h
      obtain ⟨b₁, bs₁, hb₁, h₂, rfl⟩ : ∃ b₁ bs₁,
          b₁ = (if idx = pk then b else { b with cells := b.cells ++ [cell x] }) ∧
            pushZipped step pk (idx + 1) bs xs = .ok bs₁ ∧ bs' = b₁ :: bs₁ := by
        by_cases hpk : idx = pk
        · rw [if_pos hpk] at h
          obtain ⟨b₁, h₁, h⟩ := bind_eq_ok.mp h
          obtain ⟨bs₁, h₂, h⟩ := bind_eq_ok.mp h
          cases h₁; cases h
          exact ⟨b, bs₁, (if_pos hpk).symm, h₂, rfl⟩
        · rw [if_neg hpk] at h
          obtain ⟨b₁, h₁, h⟩ := bind_eq_ok.mp h
          obtain ⟨bs₁, h₂, h⟩ := bind_eq_ok.mp h
          cases h
          exact ⟨b₁, bs₁, by rw [if_neg hpk, hstep _ _ _ h₁], h₂, rfl⟩
      obtain ⟨hlen, hget⟩ := ih h₂
      refine ⟨by simp [hlen], fun j b' x' hb hx => ?_⟩
      cases j with
      | zero =>
        simp only [List.getElem?_cons_zero, Option.some.injEq] at hb hx ⊢
        subst hb hx
        rw [hb₁, Nat.add_zero]
      | succ j =>
        rw [List.getElem?_cons_succ] at hb hx ⊢
        rw [hget j b' x' hb hx, show idx + 1 + j = idx + (j + 1) by omega]

private theorem pushPrimaryKey_eq {b b' : DynRecordBuilder} {key : Timestamped Value}
    (h : pushPrimaryKey b key pk = .ok b') :
    ∃ bd t v, b.builders[pk]? = some bd ∧ b.datatypes[pk]? = some t ∧
      key.value.value.asNative t = some v ∧
      b' = { b with builders := b.builders.set pk (bd.appendValue v) } := by
  unfold pushPrimaryKey at h
  split at h
  · rename_i bd t hbd ht
    split at h
    · rename_i bd' v hbd' hv
      unfold asBuilderMut at hbd'
      split at hbd'
      · cases hbd'; cases h; exact ⟨bd, t, v, hbd, ht, hv, rfl⟩
      · cases hbd'
    · cases h
    · cases h
  · cases h

private theorem push_eq {b b' : DynRecordBuilder} {key : Timestamped Value} {row : Option DynRecordRef}
    (hsch : b.schema.primaryKeyIndex = some pk) (h : push b key row = .ok b') :
    ∃ b₁ bs, pushPrimaryKey { b with null := b.null ++ [row.isNone], ts := b.ts ++ [key.ts] } key
        pk = .ok b₁ ∧ pushRow b₁ pk row = .ok bs ∧ b' = { b₁ with builders := bs } := by
  rw [push, hsch] at h
  obtain ⟨b₁, h₁, h⟩ := bind_eq_ok.mp h
  obtain ⟨bs, h₂, rfl⟩ := map_eq_ok.mp h
  exact ⟨b₁, bs, h₁, h₂, rfl⟩

private theorem itemsFit_length {α : Type} {admits : Field → α → Bool} (fs : List Field) :
    ∀ {idx : Nat} {xs : List α}, itemsFit admits pk idx fs xs = true → xs.length = fs.length := by
  induction fs with
  | nil => intro idx xs h; cases xs <;> first | rfl | cases h
  | cons f fs ih =>
    intro idx xs h
    cases xs with
    | nil => cases h
    | cons x xs =>
      simp only [itemsFit, Bool.and_eq_true] at h
      simp [ih h.2]

def Loaded (columns : List Field) (pk : Nat)
    (rows : List (Timestamped Value × Option DynRecordRef)) (b : DynRecordBuilder) : Prop :=
  ∀ j c, b.builders[j]? = some c → c.cells = rows.map (pushedCell columns pk j)

private theorem loaded_builder (columns : List Field) (pk : Nat) :
    Loaded columns pk [] (builder (dynSchema columns pk)) := by
  intro j c hc
  simp only [builder, dynSchema, List.drop_succ_cons, List.drop_zero, List.getElem?_map] at hc
  obtain ⟨f, -, rfl⟩ := Option.map_eq_some'.mp hc
  rfl

private theorem pushZipped_get {α : Type} {step : ArrayBuilder → α → Except Panic ArrayBuilder}
    {cell : α → Option Datum}
    (hstep : ∀ (b b' : ArrayBuilder) (x : α), step b x = .ok b' →
      b' = { b with cells := b.cells ++ [cell x] })
    {bs bs' : List ArrayBuilder} {xs : List α} (h : pushZipped step pk 0 bs xs = .ok bs')
    (hlen : xs.length = bs.length) {j : Nat} {c : ArrayBuilder} (hc : bs'[j]? = some c) :
    ∃ b x, bs[j]? = some b ∧ xs[j]? = some x ∧
      c = if j = pk then b else { b with cells := b.cells ++ [cell x] } := by
  obtain ⟨hl, hget⟩ := pushZipped_eq hstep h
  have hj : j < bs.length := hl ▸ (List.getElem?_eq_some_iff.mp hc).1
  obtain ⟨b, hb⟩ : ∃ b, bs[j]? = some b := ⟨_, List.getElem?_eq_getElem hj⟩
  obtain ⟨x, hx⟩ : ∃ x, xs[j]? = some x := ⟨_, List.getElem?_eq_getElem (hlen ▸ hj)⟩
  refine ⟨b, x, hb, hx, ?_⟩
  rw [hget j b x hb hx, Nat.zero_add, Option.some.injEq] at hc
  exact hc.symm

private theorem push_loaded {columns : List Field} {rows : List (Timestamped Value × Option DynRecordRef)}
    {b b' : DynRecordBuilder} {key : Timestamped Value} {row : Option DynRecordRef}
    (aligned : Aligned columns pk rows b) (loaded : Loaded columns pk rows b)
    (fits : rowFits columns pk key row = true) (h : push b key row = .ok b') :
    Loaded columns pk (rows ++ [(key, row)]) b' := by
  have hsch : b.schema.primaryKeyIndex = some pk := by rw [aligned.schema]; rfl
  obtain ⟨b₁, bs, h₁, h₂, rfl⟩ := push_eq hsch h
  obtain ⟨bd, t, v, hbd, ht, hv, rfl⟩ := pushPrimaryKey_eq h₁
  have hdts : b.builders.map (·.datatype) = columns.map (·.datatype) := aligned.builders.datatypes _
  have hlen : b.builders.length = columns.length := by simpa using congrArg List.length hdts
  -- every builder but the primary key's takes the cell the row gives it
  have hrow : ∀ j c, bs[j]? = some c → ∃ b₀, (b.builders.set pk (bd.appendValue v))[j]? = some b₀ ∧
      c = if j = pk then b₀
        else { b₀ with cells := b₀.cells ++ [pushedCell columns pk j (key, row)] } := by
    intro j c hc
    cases row with
    | none =>
      simp only [pushRow] at h₂
      obtain ⟨b₀, t', hb₀, ht', rfl⟩ := pushZipped_get (fun _ _ _ h => appendDefault_eq h) h₂
        (by simp [aligned.datatypes, hlen]) hc
      refine ⟨b₀, hb₀, ?_⟩
      split
      · rfl
      · rename_i hpk
        rw [aligned.datatypes, List.getElem?_map] at ht'
        obtain ⟨f, hf, rfl⟩ := Option.map_eq_some'.mp ht'
        simp [pushedCell, hpk, hf]
    | some r =>
      have hr : r.columns.length = columns.length := by
        simp only [rowFits, Bool.and_eq_true, Option.all_some] at fits
        exact itemsFit_length _ fits.2
      simp only [pushRow] at h₂
      obtain ⟨b₀, col, hb₀, hcol, rfl⟩ := pushZipped_get (fun _ _ _ h => appendColumn_eq h) h₂
        (by simp [hr, hlen]) hc
      refine ⟨b₀, hb₀, ?_⟩
      split
      · rfl
      · rename_i hpk
        simp [pushedCell, hpk, hcol]
  intro j c hc
  obtain ⟨b₀, hb₀, rfl⟩ := hrow j c hc
  rw [List.map_append, List.map_singleton]
  by_cases hpk : j = pk
  · subst hpk
    have hj : j < b.builders.length := (List.getElem?_eq_some_iff.mp hbd).1
    rw [List.getElem?_set_self hj, Option.some.injEq] at hb₀
    subst hb₀
    obtain ⟨f, hf⟩ : ∃ f, columns[j]? = some f := ⟨_, List.getElem?_eq_getElem (hlen ▸ hj)⟩
    have htf : t = f.datatype := by
      rw [aligned.datatypes, List.getElem?_map, hf] at ht
      exact (Option.some.inj ht).symm
    subst htf
    simp [ArrayBuilder.appendValue, loaded j bd hbd, pushedCell, hf, hv]
  · rw [List.getElem?_set_ne (Ne.symm hpk)] at hb₀
    simp [if_neg hpk, loaded j b₀ hb₀]

private theorem pushAll_loaded {columns : List Field}
    (todo : List (Timestamped Value × Option DynRecordRef)) :
    ∀ {rows : List (Timestamped Value × Option DynRecordRef)} {b b' : DynRecordBuilder},
      Aligned columns pk rows b → Loaded columns pk rows b →
        (∀ r ∈ todo, rowFits columns pk r.1 r.2 = true) → pushAll b todo = .ok b' →
          Loaded columns pk (rows ++ todo) b' := by
  induction todo with
  | nil => intro rows b b' _ loaded _ h; cases h; simpa using loaded
  | cons r rest ih =>
    intro rows b b' aligned loaded fits h
    obtain ⟨key, row⟩ := r
    have here := fits _ (List.mem_cons_self _ _)
    obtain ⟨b₁, h₁, h⟩ := bind_eq_ok.mp h
    obtain ⟨b₂, h₂, aligned₂⟩ := push_aligned aligned here
    rw [h₁, Except.ok.injEq] at h₂
    subst h₂
    simpa using ih aligned₂ (push_loaded aligned loaded here h₁)
      (fun r' hr' => fits r' (List.mem_cons_of_mem _ hr')) h

private theorem finish_eq {b : DynRecordBuilder} {indices : Option (List Nat)}
    {arrays : DynRecordImmutableArrays} {b' : DynRecordBuilder}
    (h : finish b indices = .ok (arrays, b')) :
    ∃ arrs builders, finishColumns b.schema 0 b.builders b.datatypes =
      .ok (arrays.columns, arrs, builders) ∧ arrays.null = b.null := by
  obtain ⟨⟨cols, arrs, builders⟩, h₁, h⟩ := bind_eq_ok.mp h
  obtain ⟨rb, -, h⟩ := bind_eq_ok.mp h
  cases h
  exact ⟨arrs, builders, h₁, rfl⟩

private theorem finishColumns_eq (schema : ArrowSchema) (cellsOf : Nat → List (Option Datum))
    (fs : List Field) :
    ∀ {idx : Nat} {bs : List ArrayBuilder} {cols : List Value} {arrays : List ArrayData}
      {builders : List ArrayBuilder},
      (∀ j, schema.fields[idx + userColumnOffset + j]? = fs[j]?) →
      bs.map (·.datatype) = fs.map (·.datatype) →
      (∀ j c, bs[j]? = some c → c.cells = cellsOf (idx + j)) →
      finishColumns schema idx bs (fs.map (·.datatype)) = .ok (cols, arrays, builders) →
      cols = (fs.enumFrom idx).map fun p =>
        ⟨p.2.datatype, p.2.name, .array p.2.datatype (cellsOf p.1), p.2.isNullable⟩ := by
  induction fs with
  | nil =>
    intro idx bs cols arrays builders _ hdts _ h
    rw [List.map_nil, List.map_eq_nil_iff] at hdts
    subst hdts
    cases h
    rfl
  | cons f fs ih =>
    intro idx bs cols arrays builders hfields hdts hcells h
    obtain ⟨b, bs, rfl⟩ : ∃ b bs', bs = b :: bs' := List.exists_cons_of_ne_nil (by
      rintro rfl; cases hdts)
    obtain ⟨hdt, hdts⟩ := List.cons.inj hdts
    have hfield : schema.fields[idx + userColumnOffset]? = some f := by simpa using hfields 0
    rw [List.map_cons, finishColumns, hfield] at h
    dsimp only at h
    rw [asBuilderMut, if_pos hdt] at h
    obtain ⟨bd, hbd, h⟩ := bind_eq_ok.mp h
    cases hbd
    obtain ⟨⟨cols', arrays', builders'⟩, h₁, h⟩ := bind_eq_ok.mp h
    cases h
    rw [ih (fun j => by
        rw [show idx + 1 + userColumnOffset + j = idx + userColumnOffset + (j + 1) by omega,
          hfields, List.getElem?_cons_succ]) hdts
      (fun j c hc => by
        rw [hcells (j + 1) c (by rwa [List.getElem?_cons_succ]), Nat.add_right_comm,
          Nat.add_assoc]) h₁,
      hcells 0 b List.getElem?_cons_zero]
    rfl

private theorem getColumns_eq (offset : Nat) (projectionMask : Nat → Bool)
    (cellsOf : Nat → List (Option Datum)) (cellAt : Nat → Option Datum)
    (hcell : ∀ j, (cellsOf j)[offset]? = some (cellAt j)) (fs : List Field) :
    ∀ idx, getColumns offset projectionMask idx ((fs.enumFrom idx).map fun p =>
        ⟨p.2.datatype, p.2.name, .array p.2.datatype (cellsOf p.1), p.2.isNullable⟩) =
      .ok ((fs.enumFrom idx).flatMap fun p =>
        (if projectionMask (p.1 + userColumnOffset) && !p.2.isNullable then
          [⟨p.2.datatype, p.2.name, .native ((cellAt p.1).getD p.2.datatype.default), true⟩]
        else []) ++
          [⟨p.2.datatype, p.2.name, .array p.2.datatype (cellsOf p.1), p.2.isNullable⟩]) := by
  induction fs with
  | nil => intro idx; rfl
  | cons f fs ih =>
    intro idx
    simp only [List.enumFrom_cons, List.map_cons, List.flatMap_cons, getColumns, ih]
    split
    · simp [Payload.asArray, arrayValue, hcell]
      rfl
    · rfl

end Loading

/-- Rows that fit the user columns, pushed into a fresh builder and finished: each user
column becomes the array of the cells the rows pushed to it, and `get` at any offset and
projection gives nothing past the last row, `Some(None)` for a tombstone, and for a record
the columns read back from its row. -/
theorem get_reads_back (columns : List Field) (pk : Nat)
    (rows : List (Timestamped Value × Option DynRecordRef))
    (fits : ∀ r ∈ rows, rowFits columns pk r.1 r.2 = true) :
    ∃ b arrays, pushAll (builder (dynSchema columns pk)) rows = .ok b ∧
      finish b none = .ok (arrays, builder (dynSchema columns pk)) ∧
      arrays.columns = columns.enum.map (fun p => pushedColumn columns pk rows p.1 p.2) ∧
      ∀ i projectionMask, get arrays i projectionMask =
        match rows[i]? with
        | none => .ok none
        | some (_, none) => .ok (some none)
        | some row => .ok (some (some ⟨readBack columns pk rows row projectionMask, 2⟩)) := by
  obtain ⟨b, hpush, aligned⟩ := pushAll_aligned rows (aligned_builder columns pk) fits
  have loaded := pushAll_loaded rows (aligned_builder columns pk) (loaded_builder columns pk)
    fits hpush
  rw [List.nil_append] at aligned loaded
  obtain ⟨⟨arrays, hfinish, -⟩, -⟩ := finish_aligned aligned
  obtain ⟨arrs, builders, hcols, hnull⟩ := finish_eq hfinish
  have hcolumns :
      arrays.columns = columns.enum.map fun p => pushedColumn columns pk rows p.1 p.2 := by
    rw [aligned.datatypes] at hcols
    exact finishColumns_eq b.schema (fun j => rows.map (pushedCell columns pk j)) columns
      (fun j => by rw [aligned.schema, dynSchema_user_field])
      (aligned.builders.datatypes _) (fun j c hc => by rw [loaded j c hc, Nat.zero_add]) hcols
  refine ⟨b, arrays, hpush, hfinish, hcolumns, fun i mask => ?_⟩
  unfold Tonbo.Record.Runtime.Array.get
  rw [hnull, aligned.null, List.length_map]
  rcases Nat.lt_or_ge i rows.length with hi | hi
  · obtain ⟨⟨key, row⟩, hrow⟩ : ∃ r, rows[i]? = some r := ⟨_, List.getElem?_eq_getElem hi⟩
    have hbit : (rows.map (·.2.isNone)).getD i false = row.isNone := by
      simp [List.getD_eq_getElem?_getD, hrow]
    rw [if_neg (by omega), hbit, hrow]
    cases row with
    | none => rfl
    | some r =>
      have hcell : ∀ j, (rows.map (pushedCell columns pk j))[i]? =
          some (pushedCell columns pk j (key, some r)) := fun j => by
        rw [List.getElem?_map, hrow]; rfl
      rw [if_neg (by simp), hcolumns]
      simp only [pushedColumn, List.enum]
      rw [getColumns_eq i mask _ _ hcell columns 0]
      rfl
  · rw [if_pos hi, List.getElem?_eq_none hi]

theorem get_reads_back_of_id_rows :
    (∀ r ∈ idRows, rowFits idColumns 0 r.1 r.2 = true) ∧
      ∃ b arrays, pushAll (builder (dynSchema idColumns 0)) idRows = .ok b ∧
        finish b none = .ok (arrays, builder (dynSchema idColumns 0)) ∧
        arrays.columns = idColumns.enum.map (fun p => pushedColumn idColumns 0 idRows p.1 p.2) ∧
        ∀ i projectionMask, get arrays i projectionMask =
          match idRows[i]? with
          | none => .ok none
          | some (_, none) => .ok (some none)
          | some row => .ok (some (some ⟨readBack idColumns 0 idRows row projectionMask, 2⟩)) :=
  ⟨by decide, get_reads_back idColumns 0 idRows (by decide)⟩

/-- Read back through `get` after a push and a finish, the record of key 1 has three columns
for the two user columns: the value of `id` extracted, then the whole `id` array, then the
whole `v` array in place of its value 7. -/
theorem get_repeats_projected_columns :
    ∃ b arrays, pushAll (builder (dynSchema idColumns 0)) idRows = .ok b ∧
      finish b none = .ok (arrays, builder (dynSchema idColumns 0)) ∧
      get arrays 0 (fun _ => true) = .ok (some (some ⟨[⟨.int32, "id", .native (.int32 1), true⟩,
        ⟨.int32, "id", .array .int32 [some (.int32 1), some (.int32 2)], false⟩,
        ⟨.int32, "v", .array .int32 [some (.int32 7), some (.int32 0)], true⟩], 2⟩)) ∧
      get arrays 1 (fun _ => true) = .ok (some none) ∧ get arrays 2 (fun _ => true) = .ok none ∧
      idColumns.length = 2 :=
  ⟨_, _, rfl, rfl, rfl, rfl, rfl, rfl⟩

end Tonbo.Record.Runtime.RoundTrip
