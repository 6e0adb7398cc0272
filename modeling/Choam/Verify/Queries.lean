import Choam.Verify.Memory

/-!
# How statements on one table fit together

On the view of one transaction, an expression that goes wrong on no row splits the rows in three:
where it is TRUE, where its negation is, and where it is NULL (`select_partition`). The numbers of
rows that statements report are those by which the table changes (`statement_accounts`), and an
INSERT of several rows is the INSERTs of some and of the rest (`insert_append`).
-/

namespace Choam

open ByteString Overlay Relational

variable {H : Host} {C : H.Contract} {u : Unicode} {s : H.Store} {t t' : H.Txn} {table : String}
  {th : TableHandle} {schema : Schema} {row : Row} {p : Expr}

/-! ## Three-valued filters -/

/-- Three predicates of which each element has exactly one split a list in three. -/
theorem filter_three_perm {α : Type} {p q r : α → Bool} {l : List α}
    (h : ∀ a ∈ l, [p a, q a, r a].count true = 1) :
    (l.filter p ++ l.filter q ++ l.filter r).Perm l := by
  induction l with
  | nil => exact .refl _
  | cons a l ih =>
    have hrest := ih fun b hb => h b (List.mem_cons_of_mem _ hb)
    have ha := h a List.mem_cons_self
    cases hp : p a <;> cases hq : q a <;> cases hr : r a <;> rw [hp, hq, hr] at ha
    case true.false.false => simpa [hp, hq, hr] using hrest
    case false.true.false =>
      simp only [List.filter_cons, hp, hq, hr, Bool.false_eq_true, if_true, if_false]
      rw [List.append_assoc, List.cons_append]
      exact List.perm_middle.trans (List.Perm.cons a (by rwa [← List.append_assoc]))
    case false.false.true =>
      simp only [List.filter_cons, hp, hq, hr, Bool.false_eq_true, if_true, if_false]
      exact List.perm_middle.trans (List.Perm.cons a hrest)
    all_goals exact absurd ha (by decide)

/-- NOT p. -/
def negation (p : Expr) : Expr := .unary .not p

/-- p IS NULL. -/
def unknown (p : Expr) : Expr := .isNull p false

/-- The expression is a filter: a truth value or a bare NULL. -/
def Expr.IsFilter (schema : Schema) (p : Expr) : Prop :=
  p.HasTy schema .boolean ∨ p.HasTy schema .null

theorem isFilter_negation (h : p.IsFilter schema) : (negation p).IsFilter schema :=
  .inl (h.elim (fun h => .unary h (.inl rfl)) fun h => .unary h (.inr rfl))

theorem isFilter_unknown (h : p.IsFilter schema) : (unknown p).IsFilter schema :=
  .inl (h.elim (fun h => .isNull false h) fun h => .isNull false h)

theorem total_negation {rows : List Row} (h : Total schema rows [p]) :
    Total schema rows [negation p] := by
  intro e he row hrow n hn
  obtain rfl := List.mem_singleton.mp he
  rcases List.mem_append.mp hn with hn | hn
  · exact h p List.mem_cons_self row hrow n hn
  · obtain rfl := List.mem_singleton.mp hn
    rfl

theorem total_unknown {rows : List Row} (h : Total schema rows [p]) :
    Total schema rows [unknown p] := by
  intro e he row hrow n hn
  obtain rfl := List.mem_singleton.mp he
  rcases List.mem_append.mp hn with hn | hn
  · exact h p List.mem_cons_self row hrow n hn
  · obtain rfl := List.mem_singleton.mp hn
    rfl

/-- A filter is TRUE, FALSE or NULL of a row. -/
theorem reference_filter (hrow : schema.Typed row) (hp : p.IsFilter schema)
    (htotal : Total schema [row] [p]) :
    reference schema row p = .null ∨ ∃ b, reference schema row p = .boolean b := by
  have hnode := htotal p List.mem_cons_self row List.mem_cons_self
  have htype : ∃ ty, p.HasTy schema ty ∧ (ty = .boolean ∨ ty = .null) :=
    hp.elim (fun h => ⟨_, h, .inl rfl⟩) fun h => ⟨_, h, .inr rfl⟩
  obtain ⟨ty, hty, hor⟩ := htype
  obtain ⟨v, -, hideal, hv⟩ := eval_total (E := Empty) hrow hty hnode
  rw [← hideal]
  rcases hv with hv | rfl
  · cases v with
    | null => exact .inl rfl
    | boolean b => exact .inr ⟨b, rfl⟩
    | integer | text | bytes =>
      rw [← hv] at hor
      exact absurd hor (by simp [Value.ty])
  · exact .inl rfl

theorem count_holds (hrow : schema.Typed row) (hp : p.IsFilter schema)
    (htotal : Total schema [row] [p]) :
    [holds schema (some p) row, holds schema (some (negation p)) row,
      holds schema (some (unknown p)) row].count true = 1 := by
  have hholds : ∀ e, holds schema (some e) row = decide (reference schema row e = .boolean true) :=
    fun _ => rfl
  have hnot : reference schema row (negation p) = .unary .not (reference schema row p) := rfl
  have hnull : reference schema row (unknown p) =
      .boolean ((reference schema row p = .null) != false) := rfl
  rw [hholds, hholds, hholds, hnot, hnull]
  rcases reference_filter hrow hp htotal with h | ⟨b, h⟩
  · rw [h]
    decide
  · rw [h]
    cases b <;> decide

/-! ## SELECT -/

/-- The row as a SELECT shows it. -/
def picked (schema : Schema) (projection : Projection) (row : Row) : Row :=
  (shown schema projection).map (cell schema row)

/-- What a SELECT without LIMIT answers, up to the order of rows. -/
theorem exec_select (hh : lookupTable (C.committed s) table = .ok (some th))
    (hrows : RowsTyped C t th) {projection : Projection} {orderBy : Option OrderBy}
    {filter : Option Expr}
    (hvalid : Valid th.schema (.select projection table filter orderBy none))
    (htotal : Total th.schema (tableRows H t th) filter.toList) :
    ∃ q, ((run u (.select projection table filter orderBy none) :
        RowM (ExecError H.StoreError) _).exec s t).1 = .ok q ∧
      q.rows.Perm (((tableRows H t th).filter (holds th.schema filter)).map
        (picked th.schema projection)) := by
  obtain ⟨t', hexec, -⟩ := (follows_select hh hrows projection orderBy none htotal).1 _ _ hvalid rfl
  refine ⟨_, congrArg Prod.fst hexec, List.Perm.map _ ?_⟩
  cases orderBy with
  | none => exact .refl _
  | some o => exact List.mergeSort_perm _ _

/-- **Every row is found by exactly one** of a filter, its negation, and the test whether it is
NULL, however the rows are shown and ordered. -/
theorem select_partition (hh : lookupTable (C.committed s) table = .ok (some th))
    (hrows : RowsTyped C t th) {projection : Projection} {orderBy : Option OrderBy}
    (hvalid : Valid th.schema (.select projection table (some p) orderBy none))
    (htotal : Total th.schema (tableRows H t th) [p]) :
    let found := fun filter => ((run u (.select projection table filter orderBy none) :
      RowM (ExecError H.StoreError) _).exec s t).1
    ∃ q₁ q₂ q₃ q, found (some p) = .ok q₁ ∧ found (some (negation p)) = .ok q₂ ∧
      found (some (unknown p)) = .ok q₃ ∧ found none = .ok q ∧
      (q₁.rows ++ q₂.rows ++ q₃.rows).Perm q.rows := by
  obtain ⟨hnames, hordered, hfilter⟩ := hvalid
  have hp : p.IsFilter th.schema := hfilter p rfl
  have hvalid : ∀ filter, ValidFilter th.schema filter →
      Valid th.schema (.select projection table filter orderBy none) := fun filter hf =>
    ⟨hnames, hordered, hf⟩
  have hsome : ∀ {e : Expr}, e.IsFilter th.schema → ValidFilter th.schema (some e) :=
    fun he f hf => by
      cases hf
      exact he
  obtain ⟨q₁, h₁, hp₁⟩ := exec_select (u := u) hh hrows (hvalid _ (hsome hp)) htotal
  obtain ⟨q₂, h₂, hp₂⟩ := exec_select (u := u) hh hrows (hvalid _ (hsome (isFilter_negation hp)))
    (total_negation htotal)
  obtain ⟨q₃, h₃, hp₃⟩ := exec_select (u := u) hh hrows (hvalid _ (hsome (isFilter_unknown hp)))
    (total_unknown htotal)
  obtain ⟨q, h, hperm⟩ := exec_select (u := u) hh hrows
    (hvalid none fun f hf => by cases hf) fun e he => by cases he
  refine ⟨q₁, q₂, q₃, q, h₁, h₂, h₃, h, ?_⟩
  have hthree := filter_three_perm (p := holds th.schema (some p))
    (q := holds th.schema (some (negation p))) (r := holds th.schema (some (unknown p)))
    (l := tableRows H t th) fun row hrow => count_holds (hrows.isRow row hrow).typed hp
      fun e he r hr => htotal e he r (by rwa [List.mem_singleton.mp hr])
  have hall : (tableRows H t th).filter (holds th.schema none) = tableRows H t th :=
    List.filter_eq_self.mpr fun _ _ => rfl
  rw [hall] at hperm
  refine (((hp₁.append hp₂).append hp₃).trans ?_).trans hperm.symm
  rw [← List.map_append, ← List.map_append]
  exact hthree.map _

/-- v = 'x'. -/
def sampleCondition : Expr := .binary (.column "v") .eq (.literal (.text "x"))

theorem total_sampleCondition : Total sampleTable.schema
    (tableRows (Reference.host true) sampleTxn sampleTable) [sampleCondition] := by
  rw [tableRows_sample]
  unfold Relational.Total
  decide

theorem select_partition_sample :
    let found := fun filter => (RowM.exec (H := Reference.host true) sampleStore
      (run (E := Empty) .ascii (.select .all "a" filter none none)) sampleTxn).1
    ∃ q₁ q₂ q₃ q, found (some sampleCondition) = .ok q₁ ∧
      found (some (negation sampleCondition)) = .ok q₂ ∧
      found (some (unknown sampleCondition)) = .ok q₃ ∧ found none = .ok q ∧
      (q₁.rows ++ q₂.rows ++ q₃.rows).Perm q.rows := by
  have htype : (checkType sampleCondition (some sampleTable.schema) :
      Except (ExecError Empty) _) = .ok .boolean := rfl
  refine select_partition lookup_sample (viewTyped_sample.rows _ _ lookup_sample) ⟨?_, ?_, ?_⟩
    total_sampleCondition
  · exact fun listed h => by cases h
  · exact fun o h => by cases h
  · intro f hf
    cases hf
    exact .inl (checkType_eq_ok.mp htype)

/-! ## What statements report -/

/-- The rows that a statement found and those that it left are as many as it reports. -/
def Accounts (schema : Schema) : Statement → Nat → List Row → List Row → Prop
  | .insert _ _ _, n, rows, rows' => rows.Sublist rows' ∧ rows'.length = rows.length + n
  | .select _ _ _ _ _, n, rows, rows' => n = 0 ∧ rows' = rows
  | .update _ _ filter, n, rows, rows' => n = (rows.filter (holds schema filter)).length ∧
    rows'.map (·[schema.primaryKey]?) = rows.map (·[schema.primaryKey]?) ∧
    List.Forall₂ (fun row row' => holds schema filter row = false → row' = row) rows rows'
  | .delete _ filter, n, rows, rows' => rows'.Sublist rows ∧ rows'.length + n = rows.length ∧
    ∀ row, row ∈ rows' ↔ row ∈ rows ∧ holds schema filter row = false
  | .createTable _ _, _, _, _ | .begin, _, _, _ | .commit, _, _, _ | .rollback, _, _, _ => False

/-- Each row of an INSERT is one row more. -/
theorem foldlM_insertOne {listed : List String} {exprs : List (List Expr)} {rows rows' : List Row}
    (h : exprs.foldlM (insertOne schema listed) rows = some rows') :
    rows.Sublist rows' ∧ rows'.length = rows.length + exprs.length := by
  induction exprs generalizing rows with
  | nil =>
    cases h
    exact ⟨.refl _, rfl⟩
  | cons e exprs ih =>
    rw [List.foldlM_cons] at h
    obtain ⟨mid, hmid, hrest⟩ := Option.bind_eq_some_iff.mp h
    obtain ⟨hsub, hlen⟩ := ih hrest
    unfold insertOne at hmid
    split at hmid
    · obtain ⟨values, -, hif⟩ := Option.bind_eq_some_iff.mp hmid
      dsimp only at hif
      split at hif
      · cases hif
        refine ⟨(List.sublist_orderedInsert _ _).trans hsub, ?_⟩
        rw [hlen, List.orderedInsert_length, List.length_cons, Nat.add_right_comm, Nat.add_assoc]
      · cases hif
    · cases hmid

theorem effect_accounts {stmt : Statement} {rows rows' : List Row} {q : QueryResult}
    (hvalid : Valid schema stmt) (htyped : ∀ row ∈ rows, schema.IsRow row)
    (h : effect schema stmt rows = some (q, rows')) :
    Accounts schema stmt q.rowsAffected rows rows' := by
  cases stmt with
  | createTable | begin | commit | rollback => cases h
  | insert name columns exprs =>
    obtain ⟨rows₁, hrows₁, heq⟩ := Option.map_eq_some_iff.mp h
    cases heq
    exact foldlM_insertOne hrows₁
  | select projection name filter orderBy limit =>
    cases h
    exact ⟨rfl, rfl⟩
  | delete name filter =>
    cases h
    refine ⟨List.filter_sublist, ?_, fun row => ?_⟩
    · rw [Nat.add_comm]
      exact (List.length_eq_length_filter_add _).symm
    · rw [List.mem_filter, Bool.not_eq_true']
  | update name assignments filter =>
    rw [effect] at h
    split at h
    next hall =>
      cases h
      refine ⟨rfl, ?_, ?_⟩
      · rw [List.map_map]
        refine List.map_congr_left fun row hrow => ?_
        rw [Function.comp_apply]
        split
        · refine assigned_primaryKey (htyped row hrow).length_eq fun a ha => ?_
          obtain ⟨c, -, hname, hne, -⟩ := hvalid.1.2 a ha
          exact hname ▸ hne
        · rfl
      · rw [List.forall₂_map_right_iff, List.forall₂_same]
        intro row _ hfalse
        rw [hfalse]
        rfl
    next => cases h

/-- **A statement reports how it changed its table**, and changes no other. -/
theorem statement_accounts {stmt : Statement} (htable : stmt.table? = some table)
    (hh : lookupTable (C.committed s) table = .ok (some th)) (hrows : RowsTyped C t th)
    (hfits : stmt.Fits) (htotal : Total th.schema (tableRows H t th) stmt.rowExprs)
    {q : QueryResult}
    (hexec : (run u stmt : RowM (ExecError H.StoreError) _).exec s t = (.ok q, t')) :
    Accounts th.schema stmt q.rowsAffected (tableRows H t th) (tableRows H t' th) ∧
      Frame C th t t' := by
  obtain ⟨hsucceeds, hfails⟩ := follows_run (u := u) htable hh hrows htotal
  by_cases hgood : Valid th.schema stmt ∧ (effect th.schema stmt (tableRows H t th)).isSome
  · obtain ⟨hvalid, hsome⟩ := hgood
    obtain ⟨⟨q', rows'⟩, heffect⟩ := Option.isSome_iff_exists.mp hsome
    obtain ⟨t'', hexec', hrep, hframe⟩ := hsucceeds q' rows' hvalid heffect
    cases hexec.symm.trans hexec'
    have hrows' : tableRows H t' th = rows' := hrep.tableRows_eq
      (effect_fits hfits fits_of_tableRows hrows.isRow hvalid htotal heffect)
    rw [hrows']
    exact ⟨effect_accounts hvalid hrows.isRow heffect, hframe⟩
  · obtain ⟨e, he⟩ := hfails fun hvalid =>
      Option.not_isSome_iff_eq_none.mp fun h => hgood ⟨hvalid, h⟩
    rw [hexec] at he
    cases he

/-- The transaction of the sample, with both rows deleted. -/
def deletedTxn : Reference.Txn :=
  (RowM.exec (H := Reference.host true) sampleStore
    (run (E := Empty) .ascii (.delete "a" (some sampleCondition))) sampleTxn).2

theorem statement_accounts_sample :
    Accounts sampleTable.schema (.delete "a" (some sampleCondition)) 2
      (tableRows (Reference.host true) sampleTxn sampleTable)
      (tableRows (Reference.host true) deletedTxn sampleTable) := by
  have hreply : (RowM.exec (H := Reference.host true) sampleStore
      (run (E := Empty) .ascii (.delete "a" (some sampleCondition))) sampleTxn).1 =
        .ok ⟨[], [], 2⟩ := by
    rfl
  have hfits : (Statement.delete "a" (some sampleCondition)).Fits := trivial
  exact (statement_accounts rfl lookup_sample (viewTyped_sample.rows _ _ lookup_sample) hfits
    total_sampleCondition (Prod.ext hreply rfl)).1

/-! ## INSERT -/

theorem insertRows_append (targets : List ℕ) (exprs exprs' : List (List Expr)) :
    (insertRows table schema targets (exprs ++ exprs') : RowM (ExecError H.StoreError) _) =
      (do
        insertRows table schema targets exprs
        insertRows table schema targets exprs') := by
  induction exprs with
  | nil => simp [insertRows]
  | cons e exprs ih => simp [insertRows, ih]

/-- An INSERT of several rows is the INSERT of the first ones and then that of the others. -/
theorem insert_append (columns : Option (List String)) (exprs exprs' : List (List Expr)) :
    (run u (.insert table columns (exprs ++ exprs')) : RowM (ExecError H.StoreError) _).exec s t =
      (do
        let q ← run u (.insert table columns exprs)
        let q' ← run u (.insert table columns exprs')
        pure { QueryResult.default with rowsAffected := q.rowsAffected + q'.rowsAffected } :
          RowM (ExecError H.StoreError) _).exec s t := by
  change (insert _ _ _ : RowM (ExecError H.StoreError) _).exec s t =
    (insert _ _ _ >>= fun q => insert _ _ _ >>= fun q' => _ :
      RowM (ExecError H.StoreError) _).exec s t
  unfold insert
  simp only [RowM.exec_bind, exec_schemaOf, RowM.exec_ofExcept]
  cases (tableAt (H.get s) table : Except (DbError H.StoreError) TableHandle) with
  | error e => rfl
  | ok th =>
  dsimp only [Except.map, Except.mapError_ok]
  cases (insertTargets th.schema columns : Except (ExecError H.StoreError) (List ℕ)) with
  | error e => rfl
  | ok targets =>
  dsimp only [Except.mapError_ok]
  rw [insertRows_append, RowM.exec_bind, List.length_append]
  generalize (insertRows table th.schema targets exprs : RowM (ExecError H.StoreError) _).exec s t =
    r
  obtain ⟨_ | _, t₁⟩ := r
  · rfl
  dsimp only
  rw [RowM.exec_pure]
  dsimp only
  generalize (insertRows table th.schema targets exprs' :
    RowM (ExecError H.StoreError) _).exec s t₁ = r
  obtain ⟨_ | _, t₂⟩ := r
  · rfl
  · rfl

/-- One INSERT for each batch of rows, and how many rows they inserted together. -/
def insertBatches (u : Unicode) (table : String) (columns : Option (List String)) :
    List (List Expr) → List (List (List Expr)) → RowM (ExecError H.StoreError) QueryResult
  | batch, [] => run u (.insert table columns batch)
  | batch, next :: batches => do
    let q ← run u (.insert table columns batch)
    let q' ← insertBatches u table columns next batches
    pure { QueryResult.default with rowsAffected := q.rowsAffected + q'.rowsAffected }

/-- **However the rows are spread over INSERT statements**, these do what the one INSERT of all the
rows does: they insert the same rows and report them together, or fail with the same error, behind
the same writes. -/
theorem insert_batches (columns : Option (List String)) (batch : List (List Expr))
    (batches : List (List (List Expr))) :
    (insertBatches u table columns batch batches :
        RowM (ExecError H.StoreError) QueryResult).exec s t =
      (run u (.insert table columns (batch ++ batches.flatten)) :
        RowM (ExecError H.StoreError) _).exec s t := by
  induction batches generalizing batch t with
  | nil => rw [List.flatten_nil, List.append_nil, insertBatches]
  | cons next batches ih =>
    rw [List.flatten_cons, insert_append, insertBatches, RowM.exec_bind, RowM.exec_bind]
    generalize (run u (.insert table columns batch) : RowM (ExecError H.StoreError) _).exec s t = r
    obtain ⟨_ | q, t₁⟩ := r
    · rfl
    · dsimp only
      rw [RowM.exec_bind, RowM.exec_bind, ih]

end Choam
