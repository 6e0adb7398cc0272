import Choam.Verify.AccessPath

/-!
# Errors that the rows have no part in

A SELECT, UPDATE or DELETE is checked against the schema before it reads a row (`staticCheck`).
What fails there fails on every contents of the table alike, before anything is written, and past
it only arithmetic and a NULL in a NOT NULL column fail (`run_static`).
-/

namespace Choam

open ByteString Overlay

variable {E : Type} {u : Unicode}

/-- The errors that depend on the rows. -/
def ExecError.IsOfData : ExecError E → Prop
  | .integerOverflow | .divisionByZero => True
  | .db (.row (.unexpectedNull _)) => True
  | _ => False

/-- The checks that a statement makes against the schema, in their order. -/
def staticCheck (u : Unicode) (schema : Schema) : Statement → Except (ExecError E) Unit
  | .select projection _ filter orderBy _ => do
    let _ ← pickColumns schema projection
    let _ ← orderColumn schema orderBy
    checkFilter filter schema
  | .update _ assignments filter => do
    let _ ← updateTargets u schema assignments []
    checkFilter filter schema
  | .delete _ filter => checkFilter filter schema
  | _ => .ok ()

/-! ## Typed rows -/

/-- A typed expression goes wrong only in the rows. -/
theorem Yields.isOfData {ty : Ty} {e : ExecError E} (h : Yields ty (.error e)) : e.IsOfData := by
  cases h <;> trivial

section Rows

variable {schema : Schema} {row : Row}

theorem Schema.IsRow.typed (h : schema.IsRow row) : schema.Typed row :=
  h.imp fun _ _ hv => hv.imp id And.left

/-- The primary key of a row is there, and can be made into a key. -/
theorem Schema.IsRow.primaryKey (h : schema.IsRow row) :
    ∃ pk, row[schema.primaryKey]? = some pk ∧ pk.columnType = some schema.primaryKeyType := by
  have hlen : schema.primaryKey < row.length := h.length ▸ schema.primaryKey_lt
  refine ⟨row[schema.primaryKey], List.getElem?_eq_getElem hlen, ?_⟩
  rcases List.Forall₂.get h hlen schema.primaryKey_lt with hty | ⟨-, hnull⟩
  · exact hty
  · have hnot := schema.primaryKey_notNull
    exact absurd (hnot.symm.trans hnull) Bool.false_ne_true

theorem encodeColumns_typed {pairs : List (Value × ColumnDef)} {i : Nat} {bitmap body : Bytes}
    {e : RowError} (hpairs : ∀ p ∈ pairs, p.1.columnType = some p.2.ty ∨ p.1 = .null)
    (h : encodeColumns i pairs bitmap body = .error e) : ∃ c, e = .unexpectedNull c := by
  induction pairs generalizing i bitmap body with
  | nil => cases h
  | cons p rest ih =>
    obtain ⟨v, c⟩ := p
    have hrest : ∀ p ∈ rest, p.1.columnType = some p.2.ty ∨ p.1 = .null :=
      fun p hp => hpairs p (List.mem_cons_of_mem _ hp)
    unfold encodeColumns at h
    split at h
    · split at h
      · exact ih hrest h
      · cases h
        exact ⟨_, rfl⟩
    next hnull =>
      rcases hpairs _ List.mem_cons_self with hty | rfl
      · obtain ⟨bs, hbs⟩ := encodeValue_isOk.mpr hty
        rw [hbs] at h
        exact ih hrest h
      · exact absurd rfl hnull

/-- Values of the columns' types are stored, or one of them is a NULL that must not be. -/
theorem encodeRow_typed {e : RowError} (hrow : schema.Typed row)
    (h : encodeRow schema row = .error e) : ∃ c, e = .unexpectedNull c := by
  unfold encodeRow at h
  rw [if_neg (not_not.mpr hrow.length_eq)] at h
  split at h
  next e' hcols =>
    cases h
    exact encodeColumns_typed (fun p hp => (List.forall₂_iff_zip.mp hrow).2 hp) hcols
  · cases h

/-- A filter that passed its check is wrong about a row only in arithmetic. -/
theorem keepsRow_typed {filter : Option Expr} {e : ExecError E}
    (hcheck : (checkFilter filter schema : Except (ExecError E) _) = .ok ())
    (hrow : schema.Typed row) (h : keepsRow filter schema row = .error e) : e.IsOfData := by
  cases filter with
  | none => cases h
  | some f =>
    obtain ⟨ty, hty, -⟩ := checkFilter_some.mp hcheck
    have hyields := eval_of_checkType hrow hty
    rw [(keepsRow_error hrow hcheck).mp h] at hyields
    exact hyields.isOfData

theorem keepRows_typed {filter : Option Expr} {rows : List Row} {e : ExecError E}
    (hcheck : (checkFilter filter schema : Except (ExecError E) _) = .ok ())
    (hrows : ∀ row ∈ rows, schema.Typed row) (h : keepRows filter schema rows = .error e) :
    e.IsOfData := by
  obtain ⟨row, hrow, h⟩ := keepRows_error h
  exact keepsRow_typed hcheck (hrows row hrow) h

/-! ### Assignments -/

theorem forall₂_set {α β : Type} {R : α → β → Prop} {l : List α} {m : List β}
    (h : List.Forall₂ R l m) {i : Nat} {a : α} (ha : ∀ b, m[i]? = some b → R a b) :
    List.Forall₂ R (l.set i a) m := by
  induction h generalizing i with
  | nil => exact .nil
  | cons hab hrest ih =>
    cases i with
    | zero => exact .cons (ha _ rfl) hrest
    | succ i => exact .cons hab (ih ha)

/-- An assignment that passed its checks: not to the primary key, and of the column's type. -/
def Assignable (E : Type) (schema : Schema) (p : Nat × Expr) : Prop :=
  p.1 ≠ schema.primaryKey ∧ ∃ c ty, schema.columns[p.1]? = some c ∧
    (checkType p.2 (some schema) : Except (ExecError E) _) = .ok ty ∧
      ty.is (.ofColumnType c.ty) = true

theorem updateTargets_assignable {assignments : List (String × Expr)}
    {targets targets' : List (Nat × Expr)} (htargets : ∀ p ∈ targets, Assignable E schema p)
    (h : (updateTargets u schema assignments targets : Except (ExecError E) _) = .ok targets') :
    ∀ p ∈ targets', Assignable E schema p := by
  induction assignments generalizing targets with
  | nil =>
    cases h
    exact htargets
  | cons a rest ih =>
    obtain ⟨i, hi, h⟩ := Except.bind_eq_ok.mp h
    split at h
    · cases h
    next hpk =>
    split at h
    · cases h
    obtain ⟨ty, hty, h⟩ := Except.bind_eq_ok.mp h
    dsimp only at h
    split at h
    · cases h
    next hassign =>
    refine ih (fun p hp => ?_) h
    rcases List.mem_append.mp hp with hp | hp
    · exact htargets p hp
    · rw [List.mem_singleton] at hp
      subst hp
      have hlt : i < schema.columns.length := by
        unfold columnIndex at hi
        split at hi
        next j hj =>
          cases hi
          exact (List.findIdx?_eq_some_iff_getElem.mp hj).1
        · cases hi
      have hcol := List.getElem?_eq_getElem hlt
      rw [hcol] at hassign
      refine ⟨hpk, _, ty, hcol, hty, Ty.is_iff.mpr ?_⟩
      tauto

/-- An assigned row has the types of the columns and its old primary key, or arithmetic failed. -/
theorem assignRow_typed {old new : Row} {targets : List (Nat × Expr)} (hold : schema.Typed old)
    (htargets : ∀ p ∈ targets, Assignable E schema p) (hnew : schema.Typed new) :
    (∀ new', (assignRow schema old targets new : Except (ExecError E) _) = .ok new' →
      schema.Typed new' ∧ new'[schema.primaryKey]? = new[schema.primaryKey]?) ∧
    ∀ e, (assignRow schema old targets new : Except (ExecError E) _) = .error e → e.IsOfData := by
  induction targets generalizing new with
  | nil =>
    refine ⟨fun new' h => ?_, nofun⟩
    cases h
    exact ⟨hnew, rfl⟩
  | cons p rest ih =>
    obtain ⟨⟨hpk, c, ty, hcol, hty, his⟩, hrest⟩ := List.forall_mem_cons.mp htargets
    have hyields := eval_of_checkType hold hty
    cases hval : (eval p.2 (some (schema, old)) : Except (ExecError E) _) with
    | error e =>
      rw [hval] at hyields
      rw [assignRow, hval]
      refine ⟨nofun, fun e' h => ?_⟩
      cases h
      exact hyields.isOfData
    | ok v =>
      rw [hval] at hyields
      cases hyields with
      | value hv =>
        have hset : schema.Typed (new.set p.1 v) := by
          refine forall₂_set hnew fun c' hc' => ?_
          rw [hcol] at hc'
          cases hc'
          exact Value.hasType_ofColumnType.mp (hv.of_is his)
        obtain ⟨hok, herr⟩ := ih hrest hset
        rw [assignRow, hval]
        refine ⟨fun new' h => ?_, herr⟩
        obtain ⟨htyped, hkey⟩ := hok new' h
        exact ⟨htyped, by rw [hkey, List.getElem?_set_ne hpk]⟩

end Rows

/-! ## Running a statement -/

section Run

variable {H : Host} {C : H.Contract} {s : H.Store} {t : H.Txn} {table : String} {h : TableHandle}

/-- Everything that the transaction sees under the table's keys is a row of the schema. -/
def WellTyped (C : H.Contract) (t : H.Txn) (h : TableHandle) : Prop :=
  ∀ k v, rowKeyPrefix h.tableId <+: k → C.view t k = some v →
    ∃ row, decodeRow h.schema v = .ok row ∧ h.schema.IsRow row

theorem exec_schemaOf_committed (hh : lookupTable (C.committed s) table = .ok (some h)) :
    (schemaOf table : RowM (ExecError H.StoreError) _).exec s t = (.ok h.schema, t) := by
  rw [exec_schemaOf, tableAt_committed hh]
  rfl

/-- A filter that fails its check fails before a row is read. -/
theorem exec_matchingRows_error {filter : Option Expr} {e : ExecError H.StoreError}
    (hcheck : checkFilter filter h.schema = .error e) :
    (matchingRows table h.schema filter : RowM (ExecError H.StoreError) _).exec s t =
      (.error e, t) := by
  unfold matchingRows candidateRows
  simp only [RowM.exec_bind, RowM.exec_ofExcept, hcheck, Except.mapError_error, id_eq]

theorem exec_candidateRows (hh : lookupTable (C.committed s) table = .ok (some h))
    (hrows : WellTyped C t h) {filter : Option Expr}
    (hcheck : (checkFilter filter h.schema : Except (ExecError H.StoreError) _) = .ok ()) :
    ∃ rows, (candidateRows table h.schema filter : RowM (ExecError H.StoreError) _).exec s t =
      (.ok rows, t) ∧ ∀ row ∈ rows, h.schema.IsRow row := by
  unfold candidateRows accessPath
  simp only [RowM.exec_bind, RowM.exec_ofExcept, hcheck, Except.mapError_ok]
  cases hpath : filter.bind (findKey h.schema) with
  | none =>
    have hdecode : ∀ e ∈ H.scan t (rowKeyPrefix h.tableId), ∃ row,
        decodeRow h.schema e.2 = .ok row ∧ h.schema.IsRow row := by
      intro e he
      obtain ⟨hp, hv⟩ := C.mem_scan_view.mp he
      exact hrows _ _ hp hv
    obtain ⟨rows, hdecoded⟩ := decodeRows_isOk fun e he =>
      (hdecode e he).imp fun _ => And.left
    refine ⟨rows, ?_, fun row hrow => ?_⟩
    · simp only [RowM.exec_adapt, exec_scan_of (tableAt_committed hh), hdecoded, Except.mapError_ok]
    · obtain ⟨e, he, hrow⟩ := decodeRows_mem hdecoded hrow
      obtain ⟨row', hrow', hisrow⟩ := hdecode e he
      rw [hrow] at hrow'
      exact Except.ok.inj hrow' ▸ hisrow
  | some pk =>
    obtain ⟨f, rfl, hfind⟩ := Option.bind_eq_some_iff.mp hpath
    obtain ⟨k, hk⟩ := rowKey_of_lookupType h.tableId (findKey_type hfind)
    obtain ⟨c, -, hkc⟩ := rowKey_ok hk
    simp only [RowM.exec_bind, RowM.exec_adapt, exec_read_of pk (tableAt_committed hh), hk,
      C.read_view]
    cases hv : C.view t k with
    | none => exact ⟨[], rfl, nofun⟩
    | some v =>
      obtain ⟨row, hrow, hisrow⟩ := hrows k v (hkc ▸ List.prefix_append _ _) hv
      refine ⟨[row], ?_, List.forall_mem_singleton.mpr hisrow⟩
      dsimp only
      rw [hrow]
      rfl

/-- Past its check, a filter finds rows of the schema, or arithmetic fails. -/
theorem exec_matchingRows (hh : lookupTable (C.committed s) table = .ok (some h))
    (hrows : WellTyped C t h) {filter : Option Expr}
    (hcheck : (checkFilter filter h.schema : Except (ExecError H.StoreError) _) = .ok ()) :
    ∃ r, (matchingRows table h.schema filter : RowM (ExecError H.StoreError) _).exec s t = (r, t) ∧
      (∀ rows, r = .ok rows → ∀ row ∈ rows, h.schema.IsRow row) ∧
        ∀ e, r = .error e → e.IsOfData := by
  obtain ⟨candidates, hexec, hall⟩ := exec_candidateRows hh hrows hcheck
  refine ⟨keepRows filter h.schema candidates, ?_, fun rows hr => ?_, fun e he => ?_⟩
  · unfold matchingRows
    simp only [RowM.exec_bind, hexec, RowM.exec_ofExcept]
    cases (keepRows filter h.schema candidates : Except (ExecError H.StoreError) _) <;> rfl
  · exact fun row hrow => hall row (keepRows_subset hr hrow)
  · exact keepRows_typed hcheck (fun row hrow => (hall row hrow).typed) he

/-- A row with the types of its columns and the primary key of an old row is stored, unless it has
a NULL that it must not have. -/
theorem exec_write_typed (hh : lookupTable (C.committed s) table = .ok (some h)) {row : Row}
    {pk : Value} (hrow : h.schema.Typed row) (hpk : row[h.schema.primaryKey]? = some pk)
    (hty : pk.columnType = some h.schema.primaryKeyType) {e : DbError H.StoreError}
    (he : ((RelTransaction.write table row : RowM (DbError H.StoreError) _).exec s t).1 =
      .error e) : (ExecError.db e).IsOfData := by
  obtain ⟨k, hk⟩ : ∃ k, rowKey h.tableId pk h.schema.primaryKeyType = .ok k :=
    rowKey_isOk.mpr hty
  rw [exec_write_eq row (tableAt_committed hh), hpk] at he
  dsimp only at he
  rw [hk] at he
  dsimp only at he
  cases henc : encodeRow h.schema row with
  | ok bs =>
    rw [henc] at he
    cases he
  | error e' =>
    rw [henc] at he
    cases he
    obtain ⟨c, rfl⟩ := encodeRow_typed hrow henc
    trivial

theorem exec_updateRows (hh : lookupTable (C.committed s) table = .ok (some h))
    {targets : List (Nat × Expr)} (htargets : ∀ p ∈ targets, Assignable H.StoreError h.schema p)
    {rows : List Row} (hrows : ∀ row ∈ rows, h.schema.IsRow row) {e : ExecError H.StoreError}
    (he : ((updateRows table h.schema targets rows : RowM (ExecError H.StoreError) _).exec s t).1 =
      .error e) : e.IsOfData := by
  induction rows generalizing t with
  | nil => cases he
  | cons old rows ih =>
    obtain ⟨hold, hrest⟩ := List.forall_mem_cons.mp hrows
    obtain ⟨pk, hpk, hty⟩ := hold.primaryKey
    obtain ⟨hassigned, hfailed⟩ := assignRow_typed hold.typed htargets hold.typed
    rw [updateRows, RowM.exec_bind, RowM.exec_ofExcept] at he
    cases hnew : (assignRow h.schema old targets old : Except (ExecError H.StoreError) _) with
    | error e' =>
      rw [hnew] at he
      cases he
      exact hfailed _ hnew
    | ok new =>
      obtain ⟨htyped, hkey⟩ := hassigned new hnew
      rw [hnew] at he
      simp only [Except.mapError_ok, RowM.exec_bind, RowM.exec_adapt] at he
      cases hwrite : ((RelTransaction.write table new : RowM (DbError H.StoreError) _).exec s t).1 with
      | error e' =>
        rw [hwrite] at he
        cases he
        exact exec_write_typed hh htyped (hkey.trans hpk) hty hwrite
      | ok _ =>
        rw [hwrite] at he
        exact ih hrest he

theorem exec_deleteRows (hh : lookupTable (C.committed s) table = .ok (some h)) {rows : List Row}
    (hrows : ∀ row ∈ rows, h.schema.IsRow row) :
    ((deleteRows table h.schema rows : RowM (ExecError H.StoreError) _).exec s t).1 = .ok () := by
  induction rows generalizing t with
  | nil => rfl
  | cons row rows ih =>
    obtain ⟨hrow, hrest⟩ := List.forall_mem_cons.mp hrows
    obtain ⟨pk, hpk, hty⟩ := hrow.primaryKey
    obtain ⟨k, hk⟩ : ∃ k, rowKey h.tableId pk h.schema.primaryKeyType = .ok k :=
      rowKey_isOk.mpr hty
    rw [deleteRows, hpk]
    simp only [RowM.exec_bind, RowM.exec_adapt, exec_delete_of (tableAt_committed hh) hk,
      Except.mapError_ok]
    exact ih hrest

/-- **A statement is decided by its static check, or by the rows.** What fails the check fails
before anything is written; what passes it fails in the rows only. -/
theorem run_static {stmt : Statement} (htable : stmt.table? = some table)
    (hinsert : ∀ columns rows, stmt ≠ .insert table columns rows)
    (hh : lookupTable (C.committed s) table = .ok (some h)) (hrows : WellTyped C t h) :
    (∀ e, staticCheck u h.schema stmt = .error e →
      (run u stmt : RowM (ExecError H.StoreError) _).exec s t = (.error e, t)) ∧
    ((staticCheck u h.schema stmt : Except (ExecError H.StoreError) _) = .ok () →
      ∀ e, ((run u stmt : RowM (ExecError H.StoreError) _).exec s t).1 = .error e →
        e.IsOfData) := by
  have hschema := @exec_schemaOf_committed H C s t table h hh
  cases stmt with
  | insert table' columns rows =>
    cases htable
    exact absurd rfl (hinsert columns rows)
  | select projection table' filter orderBy limit =>
    cases htable
    rw [run, select, RowM.exec_bind, hschema]
    dsimp only
    constructor
    · intro e he
      rcases Except.bind_eq_error.mp he with he | ⟨picked, hpicked, he⟩
      · rw [RowM.exec_bind, RowM.exec_ofExcept, he]
        rfl
      rw [RowM.exec_bind, RowM.exec_ofExcept, hpicked]
      dsimp only [Except.mapError_ok]
      rcases Except.bind_eq_error.mp he with he | ⟨order, horder, he⟩
      · rw [RowM.exec_bind, RowM.exec_ofExcept, he]
        rfl
      rw [RowM.exec_bind, RowM.exec_ofExcept, horder]
      dsimp only [Except.mapError_ok]
      rw [RowM.exec_bind, exec_matchingRows_error he]
    · intro hcheck e he
      obtain ⟨picked, hpicked, hcheck⟩ := Except.bind_eq_ok.mp hcheck
      obtain ⟨order, horder, hcheck⟩ := Except.bind_eq_ok.mp hcheck
      obtain ⟨r, hexec, -, herr⟩ := exec_matchingRows hh hrows hcheck
      rw [RowM.exec_bind, RowM.exec_ofExcept, hpicked] at he
      dsimp only [Except.mapError_ok] at he
      rw [RowM.exec_bind, RowM.exec_ofExcept, horder] at he
      dsimp only [Except.mapError_ok] at he
      rcases RowM.exec_bind_error _ _ he with he | ⟨rows, -, he⟩
      · rw [hexec] at he
        exact herr e he
      · cases he
  | update table' assignments filter =>
    cases htable
    rw [run, update, RowM.exec_bind, hschema]
    dsimp only
    constructor
    · intro e he
      rcases Except.bind_eq_error.mp he with he | ⟨targets, htargets, he⟩
      · rw [RowM.exec_bind, RowM.exec_ofExcept, he]
        rfl
      rw [RowM.exec_bind, RowM.exec_ofExcept, htargets]
      dsimp only [Except.mapError_ok]
      rw [RowM.exec_bind, exec_matchingRows_error he]
    · intro hcheck e he
      obtain ⟨targets, htargets, hcheck⟩ := Except.bind_eq_ok.mp hcheck
      obtain ⟨r, hexec, hok, herr⟩ := exec_matchingRows hh hrows hcheck
      rw [RowM.exec_bind, RowM.exec_ofExcept, htargets] at he
      dsimp only [Except.mapError_ok] at he
      rcases RowM.exec_bind_error _ _ he with he | ⟨victims, hvictims, he⟩
      · rw [hexec] at he
        exact herr e he
      rw [hexec] at hvictims
      rcases RowM.exec_bind_error _ _ he with he | ⟨_, -, he⟩
      · exact exec_updateRows hh (updateTargets_assignable (List.forall_mem_nil _) htargets)
          (hok victims hvictims) he
      · cases he
  | delete table' filter =>
    cases htable
    rw [run, delete, RowM.exec_bind, hschema]
    dsimp only
    constructor
    · intro e he
      rw [RowM.exec_bind, exec_matchingRows_error he]
    · intro hcheck e he
      obtain ⟨r, hexec, hok, herr⟩ := exec_matchingRows hh hrows hcheck
      rcases RowM.exec_bind_error _ _ he with he | ⟨victims, hvictims, he⟩
      · rw [hexec] at he
        exact herr e he
      rw [hexec] at hvictims
      rcases RowM.exec_bind_error _ _ he with he | ⟨_, -, he⟩
      · rw [exec_deleteRows hh (hok victims hvictims)] at he
        cases he
      · cases he
  | createTable | begin | commit | rollback => cases htable

/-- **Static errors do not depend on the rows.** A SELECT, UPDATE or DELETE runs on two contents of
its table, both of them rows of the schema. When one run fails with anything but an overflow, a
division by zero or a NULL assigned to a NOT NULL column, the other fails with the same error, and
neither has buffered a write; so what fails after it has begun to write, fails in the rows, and
never with a type mismatch. -/
theorem static_errors {stmt : Statement} {s' : H.Store} {t' : H.Txn} {h' : TableHandle}
    (htable : stmt.table? = some table)
    (hinsert : ∀ columns rows, stmt ≠ .insert table columns rows)
    (hh : lookupTable (C.committed s) table = .ok (some h))
    (hh' : lookupTable (C.committed s') table = .ok (some h')) (hschema : h.schema = h'.schema)
    (hrows : WellTyped C t h) (hrows' : WellTyped C t' h') {e : ExecError H.StoreError}
    (he : ((run u stmt : RowM (ExecError H.StoreError) _).exec s t).1 = .error e) :
    (¬ e.IsOfData →
      (run u stmt : RowM (ExecError H.StoreError) _).exec s t = (.error e, t) ∧
      (run u stmt : RowM (ExecError H.StoreError) _).exec s' t' = (.error e, t')) ∧
    (((run u stmt : RowM (ExecError H.StoreError) _).exec s t).2 ≠ t → e.IsOfData) := by
  obtain ⟨hstatic, hdata⟩ := run_static (u := u) htable hinsert hh hrows
  obtain ⟨hstatic', -⟩ := run_static (u := u) htable hinsert hh' hrows'
  cases hcheck : (staticCheck u h.schema stmt : Except (ExecError H.StoreError) _) with
  | ok _ =>
    have hof := hdata hcheck e he
    exact ⟨fun hnot => absurd hof hnot, fun _ => hof⟩
  | error e' =>
    have hrun := hstatic e' hcheck
    rw [hrun] at he
    cases he
    refine ⟨fun _ => ⟨hrun, hstatic' e (hschema ▸ hcheck)⟩, fun hwritten => ?_⟩
    rw [hrun] at hwritten
    exact absurd rfl hwritten

end Run

/-- What a scan finds decides whether the contents are well typed. -/
theorem wellTyped_of_scan {t : Reference.Txn} {h : TableHandle}
    (hall : ((Reference.host true).scan t (rowKeyPrefix h.tableId)).all (fun e =>
      match decodeRow h.schema e.2 with
      | .ok row => (encodeRow h.schema row).toOption.isSome
      | .error _ => false) = true) : WellTyped (Reference.contract true) t h := by
  intro k v hp hv
  have hmem := (Reference.contract true).mem_scan_view.mpr ⟨hp, hv⟩
  have hone := List.all_eq_true.mp hall (k, v) hmem
  split at hone
  next row hrow =>
    refine ⟨row, hrow, encodeRow_isOk.mp ?_⟩
    obtain ⟨bs, hbs⟩ := Option.isSome_iff_exists.mp hone
    exact ⟨bs, Except.toOption_eq_some.mp hbs⟩
  · cases hone

/-- UPDATE a SET v = 1, where `v` is a column of texts. -/
def clashSample : Statement := .update "a" [("v", .literal (.integer 1))] none

theorem static_errors_sample :
    let s := sampleStore
    let s' := (sampleRun [(0, .executeStatement createSample)]).shared
    ∃ e, (run Unicode.ascii clashSample : RowM (ExecError Empty) _).exec (H := Reference.host true)
        s ((Reference.host true).begin s).1 = (.error e, ((Reference.host true).begin s).1) ∧
      (run Unicode.ascii clashSample : RowM (ExecError Empty) _).exec (H := Reference.host true)
        s' ((Reference.host true).begin s').1 = (.error e, ((Reference.host true).begin s').1) := by
  intro s s'
  have hinsert : ∀ columns rows, clashSample ≠ .insert "a" columns rows := nofun
  have hh : lookupTable ((Reference.contract true).committed s) "a" = .ok (some sampleTable) := by
    decide +kernel
  have hh' : lookupTable ((Reference.contract true).committed s') "a" =
      .ok (some sampleTable) := by
    decide +kernel
  have hrows : WellTyped (Reference.contract true) ((Reference.host true).begin s).1 sampleTable :=
    wellTyped_of_scan (by decide +kernel)
  have hrows' : WellTyped (Reference.contract true) ((Reference.host true).begin s').1
      sampleTable := wellTyped_of_scan (by decide +kernel)
  have herr : ((run Unicode.ascii clashSample : RowM (ExecError Empty) _).exec
      (H := Reference.host true) s ((Reference.host true).begin s).1).1 = .error (.typeMismatch
        "cannot assign Integer to column \"v\" of type Text") := rfl
  exact ⟨_, (static_errors rfl hinsert hh hh' rfl hrows hrows' herr).1 id⟩

end Choam
