import Choam.Verify.StaticErrors
import Choam.Verify.Unique

/-!
# INSERT and UPDATE

UPDATE types an expression before it evaluates it, INSERT evaluates it only and leaves the rest to
the encoding of the row. `insert_succeeds` and `update_succeeds` say when each accepts an expression
for a column; they differ where the value fits the column and the type does not.
-/

namespace Choam

open ByteString

variable {E : Type} {u : Unicode} {schema : Schema} {row : Row} {c : ColumnDef} {i : ℕ} {v : Value}
  {e : Expr}

/-! ## Expressions without columns -/

def Expr.columnFree : Expr → Bool
  | .literal _ => true
  | .column _ => false
  | .isNull e _ => e.columnFree
  | .unary _ e => e.columnFree
  | .binary l _ r => l.columnFree && r.columnFree

theorem eval_columnFree (h : e.columnFree = true) (ctx : RowCtx) :
    (eval e ctx : Except (ExecError E) _) = eval e none := by
  induction e with
  | literal => rfl
  | column => cases h
  | isNull e negated ih | unary op e ih => rw [eval, eval, ih h]
  | binary l op r ihl ihr =>
    obtain ⟨hl, hr⟩ := Bool.and_eq_true_iff.mp h
    rw [eval, eval, ihl hl, ihr hr]

theorem checkType_columnFree (h : e.columnFree = true) (schema : Option Schema) :
    (checkType e schema : Except (ExecError E) _) = checkType e none := by
  induction e with
  | literal => rfl
  | column => cases h
  | isNull e negated ih | unary op e ih => rw [checkType, checkType, ih h]
  | binary l op r ihl ihr =>
    obtain ⟨hl, hr⟩ := Bool.and_eq_true_iff.mp h
    rw [checkType, checkType, ihl hl, ihr hr]

/-! ## Rows but for one value -/

/-- One value per column, of which that of column `i` need not be accepted. -/
structure Schema.RowBut (s : Schema) (i : ℕ) (row : Row) : Prop where
  length : row.length = s.columns.length
  accepts : ∀ (j : ℕ) (c : ColumnDef) (v : Value), j ≠ i → s.columns[j]? = some c →
    row[j]? = some v → c.Accepts v

theorem Schema.isRow_iff : schema.IsRow row ↔ row.length = schema.columns.length ∧
    ∀ (j : ℕ) (c : ColumnDef) (v : Value), schema.columns[j]? = some c → row[j]? = some v →
      c.Accepts v := by
  rw [IsRow, List.forall₂_iff_get]
  refine and_congr_right fun _ => ⟨fun h j c v hc hv => ?_, fun h j h₁ h₂ => ?_⟩
  · obtain ⟨hlt, rfl⟩ := List.getElem?_eq_some_iff.mp hc
    obtain ⟨hlt', rfl⟩ := List.getElem?_eq_some_iff.mp hv
    exact h j hlt' hlt
  · exact h j _ _ (List.getElem?_eq_getElem h₂) (List.getElem?_eq_getElem h₁)

theorem Schema.IsRow.rowBut (h : schema.IsRow row) (i : ℕ) : schema.RowBut i row :=
  ⟨h.length, fun j c v _ => (isRow_iff.mp h).2 j c v⟩

theorem Schema.RowBut.isRow_set (h : schema.RowBut i row) (hc : schema.columns[i]? = some c) :
    schema.IsRow (row.set i v) ↔ c.Accepts v := by
  have hlt : i < row.length := h.length ▸ (List.getElem?_eq_some_iff.mp hc).1
  rw [isRow_iff, List.length_set, and_iff_right h.length]
  constructor
  · exact fun hall => hall i c v hc (by simp [hlt])
  · intro hv j c' v' hc' hv'
    by_cases hj : j = i
    · subst hj
      rw [List.getElem?_set_self hlt] at hv'
      rw [hc] at hc'
      cases hc'
      cases hv'
      exact hv
    · rw [List.getElem?_set_ne (Ne.symm hj)] at hv'
      exact h.accepts j c' v' hj hc' hv'

/-! ## Filling a row -/

/-- Expressions that have the values of a row fill it, if it has NULL elsewhere. -/
theorem fillRow_eq {pairs : List (ℕ × Expr)} {values final : Row}
    (hlen : values.length = final.length)
    (hpairs : ∀ p ∈ pairs, ∃ v, final[p.1]? = some v ∧
      (eval p.2 none : Except (ExecError E) _) = .ok v)
    (hrest : ∀ j, j ∉ pairs.map (·.1) → values[j]? = final[j]?) :
    (fillRow pairs values : Except (ExecError E) _) = .ok final := by
  induction pairs generalizing values with
  | nil => rw [fillRow, List.ext_getElem? fun j => hrest j (by simp)]
  | cons p pairs ih =>
    obtain ⟨⟨v, hget, hv⟩, hpairs⟩ := List.forall_mem_cons.mp hpairs
    rw [fillRow, hv]
    refine ih (by simpa using hlen) hpairs fun j hj => ?_
    have hlt : p.1 < values.length := hlen ▸ (List.getElem?_eq_some_iff.mp hget).1
    by_cases hp : p.1 = j
    · subst hp
      rw [List.getElem?_set_self hlt, hget]
    · rw [List.getElem?_set_ne hp]
      exact hrest j (by simp [hj, Ne.symm hp])

theorem fillRow_mem {pairs : List (ℕ × Expr)} {values final : Row}
    (h : (fillRow pairs values : Except (ExecError E) _) = .ok final) :
    ∀ p ∈ pairs, ∃ v, (eval p.2 none : Except (ExecError E) _) = .ok v := by
  induction pairs generalizing values with
  | nil => exact nofun
  | cons p pairs ih =>
    obtain ⟨v, hv, h⟩ := Except.bind_eq_ok.mp h
    exact List.forall_mem_cons.mpr ⟨⟨v, hv⟩, ih h⟩

/-! ## The two statements -/

section Statements

variable {H : Host} {C : H.Contract} {s s' : H.Store} {t t' : H.Txn} {table table' : String}
  {h h' : TableHandle}

/-- An INSERT of one row under a fresh key, which is valid but for the value that `e` gives column
`i`; `row` is the row with any other value there. -/
structure Inserts (C : H.Contract) (s : H.Store) (t : H.Txn) (table : String) (h : TableHandle)
    (columns : Option (List String)) (exprs : List Expr) (i : ℕ) (e : Expr) (row : Row) (k : Bytes) :
    Prop where
  lookup : lookupTable (C.committed s) table = .ok (some h)
  given : ∃ targets,
    (insertTargets h.schema columns : Except (ExecError H.StoreError) _) = .ok targets ∧
      exprs.length = targets.length ∧ (i, e) ∈ targets.zip exprs ∧
      (∀ p ∈ targets.zip exprs, p = (i, e) ∨ p.1 ≠ i ∧ ∃ v, row[p.1]? = some v ∧
        (eval p.2 none : Except (ExecError H.StoreError) _) = .ok v) ∧
      ∀ j, j < h.schema.columns.length → j ∉ targets → row[j]? = some .null
  valid : h.schema.RowBut i row
  fresh : ∃ pk, row[h.schema.primaryKey]? = some pk ∧
    rowKey h.tableId pk h.schema.primaryKeyType = .ok k ∧ C.view t k = none

/-- A filter that one row of the table matches, under the key `k`. -/
structure MatchesOne (C : H.Contract) (s : H.Store) (t : H.Txn) (table : String) (h : TableHandle)
    (filter : Option Expr) (old : Row) (k : Bytes) : Prop where
  lookup : lookupTable (C.committed s) table = .ok (some h)
  typed : WellTyped C t h
  matching : (matchingRows table h.schema filter : RowM (ExecError H.StoreError) _).exec s t =
    (.ok [old], t)
  key : ∃ pk, old[h.schema.primaryKey]? = some pk ∧
    rowKey h.tableId pk h.schema.primaryKeyType = .ok k

theorem MatchesOne.isRow {filter : Option Expr} {old : Row} {k : Bytes}
    (hone : MatchesOne C s t table h filter old k) : h.schema.IsRow old := by
  cases hcheck : (checkFilter filter h.schema : Except (ExecError H.StoreError) _) with
  | error err =>
    have hmatching := hone.matching
    rw [exec_matchingRows_error hcheck] at hmatching
    cases hmatching
  | ok _ =>
    obtain ⟨r, hexec, hrows, -⟩ := exec_matchingRows hone.lookup hone.typed hcheck
    rw [hone.matching] at hexec
    cases hexec
    exact hrows _ rfl old (by simp)

/-- The statement, run on the transaction `t`, succeeds and leaves it as `t'`. -/
def Succeeds (u : Unicode) (stmt : Statement) (s : H.Store) (t t' : H.Txn) : Prop :=
  ∃ r, (run u stmt : RowM (ExecError H.StoreError) _).exec s t = (.ok r, t')

/-- A row with a fresh key is stored under it, if it can be encoded. -/
theorem exec_insertRow_of (hh : lookupTable (C.committed s) table = .ok (some h))
    {targets : List ℕ} {exprs : List Expr} {values : Row} {pk : Value} {k : Bytes}
    (hlen : exprs.length = targets.length)
    (hvalues : (fillRow (targets.zip exprs) (List.replicate h.schema.columns.length .null) :
      Except (ExecError H.StoreError) _) = .ok values)
    (hpk : values[h.schema.primaryKey]? = some pk)
    (hk : rowKey h.tableId pk h.schema.primaryKeyType = .ok k) (hfresh : C.view t k = none) :
    (insertRow table h.schema targets exprs : RowM (ExecError H.StoreError) _).exec s t =
      match encodeRow h.schema values with
      | .error err => (.error (.db (.row err)), t)
      | .ok bs => (.ok (), H.put t k bs) := by
  have hnull : pk ≠ .null := by
    rintro rfl
    have hty : Value.columnType .null = some h.schema.primaryKeyType := rowKey_isOk.mp ⟨k, hk⟩
    cases hty
  unfold insertRow
  rw [if_neg (not_not.mpr hlen), RowM.exec_bind, RowM.exec_ofExcept, hvalues]
  dsimp only [Except.mapError_ok]
  rw [hpk]
  split
  next hnone => cases hnone
  next hsome => exact absurd (Option.some.inj hsome) hnull
  next pk' _ hsome =>
  cases hsome
  rw [RowM.exec_bind, RowM.exec_adapt, exec_read_of pk (tableAt_committed hh), hk]
  dsimp only
  rw [C.read_view, hfresh]
  dsimp only [Except.mapError_ok]
  rw [RowM.exec_adapt, exec_write_eq values (tableAt_committed hh), hpk]
  dsimp only
  rw [hk]
  dsimp only
  cases encodeRow h.schema values <;> rfl

variable {columns : Option (List String)} {exprs : List Expr} {filter : Option Expr} {old : Row}
  {k k' : Bytes}

/-- An INSERT succeeds when its expression has a value that the column accepts, and stores it. -/
theorem insert_succeeds (hins : Inserts C s t table h columns exprs i e row k)
    (hc : h.schema.columns[i]? = some c) (hkey : i ≠ h.schema.primaryKey) :
    Succeeds u (.insert table columns [exprs]) s t t' ↔ ∃ v bs,
      (eval e none : Except (ExecError H.StoreError) _) = .ok v ∧
        encodeRow h.schema (row.set i v) = .ok bs ∧ t' = H.put t k bs := by
  obtain ⟨targets, htargets, hlen, hmem, hgiven, hnull⟩ := hins.given
  obtain ⟨pk, hpk, hk, hfresh⟩ := hins.fresh
  have hrun : (run u (.insert table columns [exprs]) : RowM (ExecError H.StoreError) _).exec s t =
      match (insertRow table h.schema targets exprs : RowM (ExecError H.StoreError) _).exec s t with
      | (.ok _, t') => (.ok { QueryResult.default with rowsAffected := 1 }, t')
      | (.error err, t') => (.error err, t') := by
    rw [run, insert, RowM.exec_bind, exec_schemaOf_committed hins.lookup]
    dsimp only
    rw [RowM.exec_bind, RowM.exec_ofExcept, htargets]
    dsimp only [Except.mapError_ok]
    rw [RowM.exec_bind, insertRows, RowM.exec_bind]
    rcases (insertRow table h.schema targets exprs : RowM (ExecError H.StoreError) _).exec s t with
      ⟨_ | _, t'⟩ <;> rfl
  unfold Succeeds
  rw [hrun]
  have hfill : ∀ v, (eval e none : Except (ExecError H.StoreError) _) = .ok v →
      (fillRow (targets.zip exprs) (List.replicate h.schema.columns.length .null) :
        Except (ExecError H.StoreError) _) = .ok (row.set i v) := by
    intro v hv
    have hlt : i < row.length := hins.valid.length ▸ (List.getElem?_eq_some_iff.mp hc).1
    refine fillRow_eq (by simp [hins.valid.length]) (fun p hp => ?_) fun j hj => ?_
    · rcases hgiven p hp with rfl | ⟨hne, w, hw, hval⟩
      · exact ⟨v, List.getElem?_set_self hlt, hv⟩
      · exact ⟨w, by rwa [List.getElem?_set_ne (Ne.symm hne)], hval⟩
    · rw [List.map_fst_zip hlen.ge] at hj
      have hne : i ≠ j := fun heq => hj (heq ▸ (List.of_mem_zip hmem).1)
      rw [List.getElem?_set_ne hne]
      by_cases hjlt : j < h.schema.columns.length
      · rw [hnull j hjlt hj, List.getElem?_replicate, if_pos hjlt]
      · rw [List.getElem?_eq_none (by simpa using hjlt),
          List.getElem?_eq_none (by rw [hins.valid.length]; omega)]
  constructor
  · rintro ⟨r, hr⟩
    split at hr
    next hrow =>
      cases hr
      obtain ⟨values, -, -, bs, hvalues, -⟩ := exec_insertRow (tableAt_committed hins.lookup) hrow
      obtain ⟨v, hv⟩ := fillRow_mem hvalues (i, e) hmem
      rw [exec_insertRow_of hins.lookup hlen (hfill v hv)
        (by rwa [List.getElem?_set_ne hkey]) hk hfresh] at hrow
      split at hrow
      · cases hrow
      next bs hbs =>
        cases hrow
        exact ⟨v, bs, hv, hbs, rfl⟩
    · cases hr
  · rintro ⟨v, bs, hv, hbs, rfl⟩
    rw [exec_insertRow_of hins.lookup hlen (hfill v hv)
      (by rwa [List.getElem?_set_ne hkey]) hk hfresh, hbs]
    exact ⟨_, rfl⟩

/-- The expression has the column's type, or that of a bare NULL. -/
def TypeFits (E : Type) (e : Expr) (c : ColumnDef) : Prop :=
  ∃ ty, (checkType e none : Except (ExecError E) _) = .ok ty ∧
    (ty = .ofColumnType c.ty ∨ ty = .null)

theorem updateTargets_one (hi : (columnIndex schema c.name : Except (ExecError E) _) = .ok i)
    (hc : schema.columns[i]? = some c) (hkey : i ≠ schema.primaryKey)
    (hfree : e.columnFree = true) : (TypeFits E e c ∧
      (updateTargets u schema [(c.name, e)] [] : Except (ExecError E) _) = .ok [(i, e)]) ∨
    ¬ TypeFits E e c ∧
      ∃ err, (updateTargets u schema [(c.name, e)] [] : Except (ExecError E) _) = .error err := by
  rw [updateTargets, hi]
  dsimp only [bind, Except.bind]
  rw [if_neg hkey, if_neg (by simp), checkType_columnFree hfree, hc]
  cases hty : (checkType e none : Except (ExecError E) _) with
  | error err => exact .inr ⟨fun ⟨ty, hty', _⟩ => (by cases hty.symm.trans hty'), _, rfl⟩
  | ok ty =>
    dsimp only [Option.map_some, Option.getD_some]
    by_cases hfits : ty = .ofColumnType c.ty ∨ ty = .null
    · rw [if_neg (by tauto)]
      exact .inl ⟨⟨ty, hty, hfits⟩, rfl⟩
    · rw [if_pos (by tauto)]
      refine .inr ⟨fun ⟨ty', hty', hfits'⟩ => hfits ?_, _, rfl⟩
      cases hty.symm.trans hty'
      exact hfits'

/-- An UPDATE of one row succeeds when moreover the type of the expression fits the column. -/
theorem update_succeeds (hone : MatchesOne C s t table h filter old k)
    (hi : (columnIndex h.schema c.name : Except (ExecError H.StoreError) _) = .ok i)
    (hc : h.schema.columns[i]? = some c) (hkey : i ≠ h.schema.primaryKey)
    (hfree : e.columnFree = true) :
    Succeeds u (.update table [(c.name, e)] filter) s t t' ↔ TypeFits H.StoreError e c ∧ ∃ v bs,
      (eval e none : Except (ExecError H.StoreError) _) = .ok v ∧
        encodeRow h.schema (old.set i v) = .ok bs ∧ t' = H.put t k bs := by
  obtain ⟨pk, hpk, hk⟩ := hone.key
  unfold Succeeds
  rw [run, update, RowM.exec_bind, exec_schemaOf_committed hone.lookup]
  dsimp only
  rw [RowM.exec_bind, RowM.exec_ofExcept]
  rcases updateTargets_one (E := H.StoreError) (u := u) hi hc hkey hfree with
    ⟨hfits, htargets⟩ | ⟨hfits, err, htargets⟩
  · rw [htargets, and_iff_right hfits]
    dsimp only [Except.mapError_ok]
    rw [RowM.exec_bind, hone.matching]
    dsimp only
    rw [RowM.exec_bind, updateRows, RowM.exec_bind, RowM.exec_ofExcept]
    cases hv : (eval e none : Except (ExecError H.StoreError) _) with
    | error err =>
      have hassign : (assignRow h.schema old [(i, e)] old : Except (ExecError H.StoreError) _) =
          .error err := by
        rw [assignRow, eval_columnFree hfree, hv]
        rfl
      rw [hassign]
      constructor
      · rintro ⟨r, hr⟩
        cases hr
      · rintro ⟨v, bs, hv', -⟩
        cases hv'
    | ok v =>
      have hassign : (assignRow h.schema old [(i, e)] old : Except (ExecError H.StoreError) _) =
          .ok (old.set i v) := by
        rw [assignRow, eval_columnFree hfree, hv]
        rfl
      have hset : (old.set i v)[h.schema.primaryKey]? = some pk := by
        rwa [List.getElem?_set_ne hkey]
      rw [hassign]
      dsimp only [Except.mapError_ok]
      rw [RowM.exec_bind, RowM.exec_adapt, exec_write_eq _ (tableAt_committed hone.lookup), hset]
      dsimp only
      rw [hk]
      dsimp only
      cases hbs : encodeRow h.schema (old.set i v) with
      | error err =>
        constructor
        · rintro ⟨r, hr⟩
          cases hr
        · rintro ⟨v', bs, hv', hbs', -⟩
          cases hv'
          cases hbs.symm.trans hbs'
      | ok bs =>
        constructor
        · rintro ⟨r, hr⟩
          cases hr
          exact ⟨v, bs, rfl, hbs, rfl⟩
        · rintro ⟨v', bs', hv', hbs', rfl⟩
          cases hv'
          cases hbs.symm.trans hbs'
          exact ⟨_, rfl⟩
  · rw [htargets]
    constructor
    · rintro ⟨r, hr⟩
      cases hr
    · rintro ⟨hfits', -⟩
      exact absurd hfits' hfits

/-- The value that is stored under the key for column `i`. -/
def Stored (C : H.Contract) (t : H.Txn) (schema : Schema) (i : ℕ) (k : Bytes) (v : Value) : Prop :=
  ∃ row bs, row[i]? = some v ∧ encodeRow schema row = .ok bs ∧ C.view t k = some bs

theorem stored_put (hc : schema.columns[i]? = some c) {bs : Bytes}
    (hbs : encodeRow schema (row.set i v) = .ok bs) : Stored C (H.put t k bs) schema i k v := by
  have hlen := (encodeRow_isOk.mp ⟨bs, hbs⟩).length
  rw [List.length_set] at hlen
  have hlt : i < row.length := hlen ▸ (List.getElem?_eq_some_iff.mp hc).1
  refine ⟨row.set i v, bs, List.getElem?_set_self hlt, hbs, ?_⟩
  rw [C.view_put, Function.update_self]

/-- **INSERT and UPDATE agree** on whether a column takes an expression, and store the same value,
just when the type of the expression fits the column or its value does not. -/
theorem insert_update_agree (hins : Inserts C s t table h columns exprs i e row k)
    (hone : MatchesOne C s' t' table' h' filter old k') (hschema : h'.schema = h.schema)
    (hi : (columnIndex h.schema c.name : Except (ExecError H.StoreError) _) = .ok i)
    (hc : h.schema.columns[i]? = some c) (hkey : i ≠ h.schema.primaryKey)
    (hfree : e.columnFree = true) :
    (((∃ t₁, Succeeds u (.insert table columns [exprs]) s t t₁) ↔
          ∃ t₂, Succeeds u (.update table' [(c.name, e)] filter) s' t' t₂) ∧
        ∀ t₁ t₂, Succeeds u (.insert table columns [exprs]) s t t₁ →
          Succeeds u (.update table' [(c.name, e)] filter) s' t' t₂ →
            ∃ v, Stored C t₁ h.schema i k v ∧ Stored C t₂ h.schema i k' v) ↔
      TypeFits H.StoreError e c ∨
        ¬ ∃ v, (eval e none : Except (ExecError H.StoreError) _) = .ok v ∧ c.Accepts v := by
  have hinsert : ∀ t₁, Succeeds u (.insert table columns [exprs]) s t t₁ ↔ _ := fun t₁ =>
    insert_succeeds hins hc hkey
  have hupdate : ∀ t₂, Succeeds u (.update table' [(c.name, e)] filter) s' t' t₂ ↔ _ := fun t₂ =>
    update_succeeds hone (hschema ▸ hi) (hschema ▸ hc) (hschema ▸ hkey) hfree
  have hold : h.schema.IsRow old := hschema ▸ hone.isRow
  -- what each statement needs of the value
  have hvalid : ∀ {row : Row}, h.schema.RowBut i row → ∀ v, (∃ bs,
      encodeRow h.schema (row.set i v) = .ok bs) ↔ c.Accepts v := fun {row} hrow v => by
    rw [encodeRow_isOk, hrow.isRow_set hc]
  simp only [hinsert, hupdate, hschema]
  constructor
  · rintro ⟨hsame, -⟩
    by_cases hv : ∃ v, (eval e none : Except (ExecError H.StoreError) _) = .ok v ∧ c.Accepts v
    · obtain ⟨v, hval, haccepts⟩ := hv
      obtain ⟨bs, hbs⟩ := (hvalid hins.valid v).mpr haccepts
      obtain ⟨t₂, hfits, -⟩ := hsame.mp ⟨_, v, bs, hval, hbs, rfl⟩
      exact .inl hfits
    · exact .inr hv
  · intro hcond
    refine ⟨⟨?_, ?_⟩, ?_⟩
    · rintro ⟨t₁, v, bs, hval, hbs, rfl⟩
      have haccepts := (hvalid hins.valid v).mp ⟨bs, hbs⟩
      obtain ⟨bs', hbs'⟩ := (hvalid (hold.rowBut i) v).mpr haccepts
      exact ⟨_, hcond.resolve_right (not_not.mpr ⟨v, hval, haccepts⟩), v, bs', hval, hbs', rfl⟩
    · rintro ⟨t₂, -, v, bs, hval, hbs, rfl⟩
      obtain ⟨bs', hbs'⟩ := (hvalid hins.valid v).mpr ((hvalid (hold.rowBut i) v).mp ⟨bs, hbs⟩)
      exact ⟨_, v, bs', hval, hbs', rfl⟩
    · rintro t₁ t₂ ⟨v, bs, hval, hbs, rfl⟩ ⟨-, v', bs', hval', hbs', rfl⟩
      cases hval.symm.trans hval'
      exact ⟨v, stored_put hc hbs, stored_put hc hbs'⟩

end Statements

/-- INSERT INTO a VALUES (9, e), under a key that the sample table does not have. -/
theorem inserts_sample (e : Expr) : @Inserts (Reference.host true) (Reference.contract true)
    sampleStore sampleTxn "a" sampleTable none [.literal (.integer 9), e] 1 e [.integer 9, .null]
    ((rowKey 0 (.integer 9) .integer).toOption.getD []) := by
  refine ⟨by decide +kernel, ⟨[0, 1], rfl, rfl, by simp, ?_, ?_⟩, ⟨rfl, ?_⟩, _, rfl, by decide +kernel, by decide +kernel⟩
  · intro p hp
    rcases List.mem_cons.mp hp with rfl | hp
    · exact .inr ⟨by decide, .integer 9, rfl, rfl⟩
    · exact .inl (List.mem_singleton.mp hp)
  · intro j hj hnot
    have hlt : j < 2 := hj
    simp only [List.mem_cons, List.not_mem_nil, or_false, not_or] at hnot
    omega
  · intro j c v hj hc hv
    match j, hj, hc, hv with
    | 0, _, hc, hv =>
      cases hc
      cases hv
      exact .inl rfl
    | 1, hj, _, _ => exact absurd rfl hj
    | j + 2, _, hc, _ => cases hc

/-- UPDATE a SET v = e WHERE v = 'x' AND 3 + 4 = k. -/
theorem matchesOne_sample : @MatchesOne (Reference.host true) (Reference.contract true)
    sampleStore sampleTxn "a" sampleTable (some sampleFilter) [.integer 7, .text "x"]
    ((rowKey 0 (.integer 7) .integer).toOption.getD []) := by
  have hh : lookupTable ((Reference.contract true).committed sampleStore) "a" =
      .ok (some sampleTable) := by decide +kernel
  have htyped : WellTyped (Reference.contract true) sampleTxn sampleTable :=
    wellTyped_of_scan (by decide +kernel)
  refine ⟨hh, htyped, ?_, _, rfl, by decide +kernel⟩
  obtain ⟨r, hexec, -⟩ := @exec_matchingRows _ _ _ _ _ _ hh htyped (some sampleFilter) rfl
  have hrows : ((matchingRows "a" sampleTable.schema (some sampleFilter) :
      RowM (ExecError Empty) _).exec (H := Reference.host true) sampleStore sampleTxn).1.toOption =
        some [[.integer 7, .text "x"]] := by decide +kernel
  rw [hexec] at hrows ⊢
  have hok : r = .ok _ := Except.toOption_eq_some.mp hrows
  rw [hok]

/-- NULL + 'a', which has no type. -/
def nullSum : Expr := .binary (.literal .null) .add (.literal (.text "a"))

/-- An INSERT takes for a column what an UPDATE refuses for it. -/
theorem insert_update_agree_counterexample :
    (eval nullSum none : Except (ExecError Empty) _) = .ok .null ∧
      (∃ t₁, @Succeeds (Reference.host true) Unicode.ascii
        (.insert "a" none [[.literal (.integer 9), nullSum]]) sampleStore sampleTxn t₁) ∧
      ¬ ∃ t₂, @Succeeds (Reference.host true) Unicode.ascii
        (.update "a" [("v", nullSum)] (some sampleFilter)) sampleStore sampleTxn t₂ := by
  have hins := inserts_sample nullSum
  have hrow : sampleTable.schema.IsRow [.integer 9, .null] :=
    .cons (.inl rfl) (.cons (.inr ⟨rfl, rfl⟩) .nil)
  obtain ⟨bs, hbs⟩ := encodeRow_isOk.mpr hrow
  refine ⟨rfl, ⟨_, (insert_succeeds (c := ⟨"v", .text, true⟩) hins rfl (by decide)).mpr
    ⟨.null, bs, rfl, hbs, rfl⟩⟩, ?_⟩
  rintro ⟨t₂, h₂⟩
  obtain ⟨⟨ty, hty, -⟩, -⟩ := (update_succeeds (c := ⟨"v", .text, true⟩) matchesOne_sample rfl rfl
    (by decide) rfl).mp h₂
  cases hty

theorem insert_update_agree_sample :
    ((∃ t₁, @Succeeds (Reference.host true) Unicode.ascii
          (.insert "a" none [[.literal (.integer 9), .literal (.text "y")]])
          sampleStore sampleTxn t₁) ↔
        ∃ t₂, @Succeeds (Reference.host true) Unicode.ascii
          (.update "a" [("v", .literal (.text "y"))] (some sampleFilter)) sampleStore sampleTxn t₂) :=
  ((insert_update_agree (c := ⟨"v", .text, true⟩) (inserts_sample _) matchesOne_sample rfl rfl rfl
    (by decide) rfl).mpr (.inl ⟨.text, rfl, .inl rfl⟩)).1

end Choam
