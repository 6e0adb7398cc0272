import Choam.Verify.AccessPath

/-!
# Where a filter fails

A scan evaluates the filter on every row, a lookup on the row of the key that it looks up, so a
filter that pins a key can be TRUE or FALSE where a scan fails. `matchingRows_fails` says on which
rows a failure counts. Reordering an AND chain changes neither where it fails (`fails_perm`) nor
whether it is accepted (`checkFilter_perm`), but can change the key that it pins.
-/

namespace Choam

variable {E : Type} {H : Host} {C : H.Contract} {schema : Schema} {row : Row}

/-! ## AND chains -/

/-- The operands of the outermost ANDs, from left to right. -/
def Expr.conjuncts : Expr → List Expr
  | .binary l .and r => l.conjuncts ++ r.conjuncts
  | e => [e]

/-- No filter is the empty chain. -/
def conjuncts (filter : Option Expr) : List Expr := filter.elim [] Expr.conjuncts

/-- The expressions joined by AND. -/
def chain (e : Expr) (es : List Expr) : Expr := es.foldl (.binary · .and ·) e

theorem Expr.conjuncts_ne_nil (e : Expr) : e.conjuncts ≠ [] := by
  fun_induction Expr.conjuncts e with
  | case1 l r ihl ihr => simp [ihl]
  | case2 e => simp

theorem Expr.conjuncts_of_mem {c e : Expr} (h : c ∈ e.conjuncts) : c.conjuncts = [c] := by
  fun_induction Expr.conjuncts e with
  | case1 l r ihl ihr => exact (List.mem_append.mp h).elim ihl ihr
  | case2 e hne =>
    obtain rfl := List.mem_singleton.mp h
    rw [Expr.conjuncts.eq_def]
    split
    next l r => exact absurd rfl (hne l r)
    · rfl

theorem conjuncts_chain (e : Expr) (es : List Expr) :
    (chain e es).conjuncts = e.conjuncts ++ es.flatMap Expr.conjuncts := by
  induction es generalizing e with
  | nil => simp [chain]
  | cons e' es ih => rw [chain, List.foldl_cons, ← chain, ih, Expr.conjuncts]; simp

/-- Any conjunct can be brought to the front. -/
theorem exists_reordering {c e : Expr} (h : c ∈ e.conjuncts) :
    ∃ e' : Expr, e'.conjuncts.Perm e.conjuncts ∧ e'.conjuncts.head? = some c := by
  obtain ⟨before, after, heq⟩ := List.append_of_mem h
  have hself : (before ++ after).flatMap Expr.conjuncts = before ++ after := by
    have hone : ∀ c' ∈ before ++ after, c'.conjuncts = [c'] := fun c' hc' =>
      @Expr.conjuncts_of_mem c' e (by rw [heq]; simp at hc' ⊢; tauto)
    rw [List.flatMap_congr hone, List.flatMap_singleton']
  refine ⟨chain c (before ++ after), ?_, ?_⟩
  · rw [conjuncts_chain, Expr.conjuncts_of_mem h, hself, heq, List.singleton_append]
    exact List.perm_middle.symm
  · rw [conjuncts_chain, Expr.conjuncts_of_mem h]
    rfl

/-- The key that a chain pins is that of the first conjunct that pins one. -/
theorem findKey_conjuncts (schema : Schema) (f : Expr) :
    findKey schema f = f.conjuncts.findSome? (findKey schema) := by
  fun_induction Expr.conjuncts f with
  | case1 l r ihl ihr => rw [findKey, List.findSome?_append, ihl, ihr]
  | case2 f hne => cases hf : findKey schema f <;> simp [hf]

theorem checkFilter_conjuncts {f : Expr} :
    (checkFilter (some f) schema : Except (ExecError E) _) = .ok () ↔
      ∀ c ∈ f.conjuncts, (checkFilter (some c) schema : Except (ExecError E) _) = .ok () := by
  fun_induction Expr.conjuncts f with
  | case1 l r ihl ihr =>
    rw [List.forall_mem_append, ← ihl, ← ihr, checkFilter_some, checkFilter_some, checkFilter_some]
    constructor
    · rintro ⟨ty, hty, -⟩
      obtain ⟨t, ht, hty⟩ := Except.bind_eq_ok.mp hty
      obtain ⟨t', ht', hty⟩ := Except.bind_eq_ok.mp hty
      simp only [checkBinary, checkOperands] at hty
      split at hty
      next his =>
        obtain ⟨h, h'⟩ := Bool.and_eq_true_iff.mp his
        exact ⟨⟨t, ht, h⟩, t', ht', h'⟩
      · cases hty
    · rintro ⟨⟨t, ht, h⟩, t', ht', h'⟩
      refine ⟨.boolean, Except.bind_eq_ok.mpr ⟨t, ht, Except.bind_eq_ok.mpr ⟨t', ht', ?_⟩⟩, rfl⟩
      simp [checkBinary, checkOperands, h, h']
  | case2 f hne => simp

/-! ## Failing on a row -/

/-- Evaluating the filter on the row fails. -/
def Fails (E : Type) (filter : Option Expr) (schema : Schema) (row : Row) : Prop :=
  ∃ f, filter = some f ∧ ∃ e, (eval f (some (schema, row)) : Except (ExecError E) _) = .error e

theorem fails_some {f : Expr} : Fails E (some f) schema row ↔
    ∃ e, (eval f (some (schema, row)) : Except (ExecError E) _) = .error e := by
  simp [Fails]

/-- An accepted chain fails where one of its conjuncts does. -/
theorem fails_conjuncts {f : Expr} (hrow : schema.Typed row)
    (hcheck : (checkFilter (some f) schema : Except (ExecError E) _) = .ok ()) :
    Fails E (some f) schema row ↔ ∃ c ∈ f.conjuncts, Fails E (some c) schema row := by
  fun_induction Expr.conjuncts f with
  | case1 l r ihl ihr =>
    have hparts := checkFilter_conjuncts.mp hcheck
    rw [Expr.conjuncts, List.forall_mem_append] at hparts
    have hl := checkFilter_conjuncts.mpr hparts.1
    have hr := checkFilter_conjuncts.mpr hparts.2
    have hsplit : (∃ c ∈ l.conjuncts ++ r.conjuncts, Fails E (some c) schema row) ↔
        Fails E (some l) schema row ∨ Fails E (some r) schema row := by
      rw [ihl hl, ihr hr]
      simp only [List.mem_append, or_and_right, exists_or]
    rw [hsplit, fails_some, fails_some, fails_some, eval]
    cases ha : (eval l (some (schema, row)) : Except (ExecError E) _) with
    | error e => exact ⟨fun _ => .inl ⟨e, rfl⟩, fun _ => ⟨e, rfl⟩⟩
    | ok a =>
      cases hb : (eval r (some (schema, row)) : Except (ExecError E) _) with
      | error e => exact ⟨fun _ => .inr ⟨e, rfl⟩, fun _ => ⟨e, rfl⟩⟩
      | ok b =>
        -- two truth values have a conjunction
        have hbool : ∀ {v : Value}, (v = .null ∨ ∃ b, v = .boolean b) → ∃ x, v = ofBool3 x := by
          rintro v (rfl | ⟨b, rfl⟩)
          · exact ⟨none, rfl⟩
          · exact ⟨some b, rfl⟩
        obtain ⟨x, rfl⟩ := hbool (eval_of_checkFilter hrow hl ha)
        obtain ⟨y, rfl⟩ := hbool (eval_of_checkFilter hrow hr hb)
        have hand : (logical .and and3 (ofBool3 x) (ofBool3 y) : Except (ExecError E) _) = .ok _ :=
          logical_eq_ok.mpr ⟨x, y, rfl, rfl, rfl⟩
        constructor
        · rintro ⟨e, he⟩
          cases hand.symm.trans he
        · rintro (⟨e, he⟩ | ⟨e, he⟩) <;> cases he
  | case2 f hne => simp

section Reordering

variable {filter filter' : Option Expr}

theorem conjuncts_eq_nil : conjuncts filter = [] ↔ filter = none := by
  cases filter with
  | none => simp [conjuncts]
  | some f => simp [conjuncts, f.conjuncts_ne_nil]

theorem checkFilter_perm (hperm : (conjuncts filter').Perm (conjuncts filter))
    (hcheck : (checkFilter filter schema : Except (ExecError E) _) = .ok ()) :
    (checkFilter filter' schema : Except (ExecError E) _) = .ok () := by
  cases filter' with
  | none => rfl
  | some f' =>
    cases filter with
    | none => exact absurd hperm.eq_nil f'.conjuncts_ne_nil
    | some f =>
      exact checkFilter_conjuncts.mpr fun c hc => checkFilter_conjuncts.mp hcheck c (hperm.mem_iff.mp hc)

theorem fails_perm (hperm : (conjuncts filter').Perm (conjuncts filter)) (hrow : schema.Typed row)
    (hcheck : (checkFilter filter schema : Except (ExecError E) _) = .ok ()) :
    Fails E filter' schema row ↔ Fails E filter schema row := by
  cases filter' with
  | none => rw [conjuncts_eq_nil.mp hperm.nil_eq.symm]
  | some f' =>
    cases filter with
    | none => exact absurd hperm.eq_nil f'.conjuncts_ne_nil
    | some f =>
      rw [fails_conjuncts hrow (checkFilter_perm hperm hcheck), fails_conjuncts hrow hcheck]
      exact exists_congr fun c => and_congr_left fun _ => hperm.mem_iff

/-! ## Which failures count -/

theorem keepRows_fails {rows : List Row} :
    (∃ e, (keepRows filter schema rows : Except (ExecError E) _) = .error e) ↔
      ∃ row ∈ rows, ∃ e, (keepsRow filter schema row : Except (ExecError E) _) = .error e := by
  induction rows with
  | nil => simp [keepRows]
  | cons row rows ih =>
    rw [List.exists_mem_cons_iff, ← ih, keepRows]
    simp only [Except.bind_eq_error]
    constructor
    · rintro ⟨e, h | ⟨keep, -, h | ⟨kept, -, h⟩⟩⟩
      · exact .inl ⟨e, h⟩
      · exact .inr ⟨e, h⟩
      · cases h
    · rintro (⟨e, h⟩ | ⟨e, h⟩)
      · exact ⟨e, .inl h⟩
      · cases hkeep : (keepsRow filter schema row : Except (ExecError E) _) with
        | error e' => exact ⟨e', .inl rfl⟩
        | ok keep => exact ⟨e, .inr ⟨keep, rfl, .inl h⟩⟩

variable {s : H.Store} {t : H.Txn} {table : String} {h : TableHandle}

/-- Arithmetic fails while the rows that match are looked for. -/
def MatchingFails (s : H.Store) (t : H.Txn) (table : String) (schema : Schema)
    (filter : Option Expr) : Prop :=
  ∃ e, (e = .integerOverflow ∨ e = .divisionByZero) ∧
    ((matchingRows table schema filter : RowM (ExecError H.StoreError) _).exec s t).1 = .error e

/-- The table's rows, as a scan finds them. -/
def scanned (t : H.Txn) (h : TableHandle) : List Row :=
  (H.scan t (rowKeyPrefix h.tableId)).map (rowOf h.schema)

theorem keepsRow_fails (hrow : schema.Typed row)
    (hcheck : (checkFilter filter schema : Except (ExecError E) _) = .ok ()) :
    (∃ e, (keepsRow filter schema row : Except (ExecError E) _) = .error e) ↔
      Fails E filter schema row := by
  cases filter with
  | none => exact ⟨fun ⟨e, he⟩ => (nomatch he), fun ⟨f, hf, _⟩ => (nomatch hf)⟩
  | some f => rw [fails_some, exists_congr fun e => keepsRow_error hrow hcheck]

/-- **Failures that count** are those on rows that have the key the filter pins. -/
theorem matchingRows_fails (hh : lookupTable (C.committed s) table = .ok (some h))
    (hrows : RowsUnderKeys C t h)
    (hcheck : (checkFilter filter h.schema : Except (ExecError H.StoreError) _) = .ok ()) :
    MatchingFails s t table h.schema filter ↔ ∃ row ∈ scanned t h,
      pinned h.schema filter row = true ∧ Fails H.StoreError filter h.schema row := by
  have hexec : ((matchingRows table h.schema filter :
      RowM (ExecError H.StoreError) _).exec s t).1 =
        keepRows filter h.schema ((scanned t h).filter (pinned h.schema filter)) := by
    unfold matchingRows scanned
    simp only [RowM.exec_bind, exec_candidateRows_eq hh hrows hcheck, RowM.exec_ofExcept]
    cases (keepRows filter h.schema _ : Except (ExecError H.StoreError) _) <;> rfl
  rw [MatchingFails, hexec]
  constructor
  · rintro ⟨e, -, he⟩
    obtain ⟨row, hrow, he⟩ := keepRows_error he
    obtain ⟨hrow, hpinned⟩ := List.mem_filter.mp hrow
    exact ⟨row, hrow, hpinned, (keepsRow_fails (typed_of_scan hrows hrow).1 hcheck).mp ⟨e, he⟩⟩
  · rintro ⟨row, hrow, hpinned, hfails⟩
    obtain ⟨e, he⟩ := keepRows_fails.mpr ⟨row, List.mem_filter.mpr ⟨hrow, hpinned⟩,
      (keepsRow_fails (typed_of_scan hrows hrow).1 hcheck).mpr hfails⟩
    obtain ⟨row', hrow', he'⟩ := keepRows_error he
    have htyped := (typed_of_scan hrows (List.mem_filter.mp hrow').1).1
    refine ⟨e, ?_, he⟩
    cases filter with
    | none => cases he'
    | some f =>
      obtain ⟨ty, hty, -⟩ := checkFilter_some.mp hcheck
      exact (eval_of_checkType htyped hty).error_eq ((keepsRow_error htyped hcheck).mp he')

/-- A conjunct that pins a key can be made to choose the path. -/
theorem exists_pinning {c : Expr} {pk : Value} (hc : c ∈ conjuncts filter)
    (hpk : findKey schema c = some pk) : ∃ filter', (conjuncts filter').Perm (conjuncts filter) ∧
      filter'.bind (findKey schema) = some pk := by
  cases filter with
  | none => cases hc
  | some f =>
    obtain ⟨f', hperm, hhead⟩ := exists_reordering hc
    obtain ⟨rest, hrest⟩ := List.head?_eq_some_iff.mp hhead
    refine ⟨some f', hperm, ?_⟩
    rw [Option.bind_some, findKey_conjuncts, hrest, List.findSome?_cons, hpk]

/-- **The access path decides nothing** about whether a filter fails, however its AND chain is
ordered, just when each key that the chain pins is that of a row on which the filter fails too, if
it fails on a row with another key. -/
theorem access_path_fails_iff (hh : lookupTable (C.committed s) table = .ok (some h))
    (hrows : RowsUnderKeys C t h)
    (hcheck : (checkFilter filter h.schema : Except (ExecError H.StoreError) _) = .ok ()) :
    ∃ rows, (RelTransaction.scan table : RowM (DbError H.StoreError) _).exec s t = (.ok rows, t) ∧
      (((MatchingFails s t table h.schema filter ↔
            ∃ row ∈ rows, Fails H.StoreError filter h.schema row) ∧
          ∀ filter', (conjuncts filter').Perm (conjuncts filter) →
            (MatchingFails s t table h.schema filter' ↔ MatchingFails s t table h.schema filter)) ↔
        ∀ c ∈ conjuncts filter, ∀ pk, findKey h.schema c = some pk →
          (∃ row ∈ rows, row[h.schema.primaryKey]? ≠ some pk ∧
            Fails H.StoreError filter h.schema row) →
          ∃ row ∈ rows, row[h.schema.primaryKey]? = some pk ∧
            Fails H.StoreError filter h.schema row) := by
  refine ⟨scanned t h, exec_scan_eq hh hrows, ?_⟩
  have htyped : ∀ row ∈ scanned t h, h.schema.Typed row := fun row hrow =>
    (typed_of_scan hrows hrow).1
  -- a reordering fails on the same rows, of which its own key selects those that count
  have hreordered : ∀ filter', (conjuncts filter').Perm (conjuncts filter) →
      (MatchingFails s t table h.schema filter' ↔ ∃ row ∈ scanned t h,
        pinned h.schema filter' row = true ∧ Fails H.StoreError filter h.schema row) := by
    intro filter' hperm
    rw [matchingRows_fails hh hrows (checkFilter_perm hperm hcheck)]
    refine exists_congr fun row => and_congr_right fun hrow => and_congr_right fun _ => ?_
    exact fails_perm hperm (htyped row hrow) hcheck
  constructor
  · rintro ⟨hscan, hsame⟩ c hc pk hpk ⟨row, hrow, -, hfails⟩
    obtain ⟨filter', hperm, hpins⟩ := exists_pinning hc hpk
    obtain ⟨row', hrow', hpinned, hfails'⟩ :=
      (hreordered filter' hperm).mp ((hsame filter' hperm).mpr (hscan.mpr ⟨row, hrow, hfails⟩))
    exact ⟨row', hrow', pinned_iff.mp hpinned pk hpins, hfails'⟩
  · intro hkeys
    have hall : ∀ filter', (conjuncts filter').Perm (conjuncts filter) →
        (MatchingFails s t table h.schema filter' ↔
          ∃ row ∈ scanned t h, Fails H.StoreError filter h.schema row) := by
      intro filter' hperm
      rw [hreordered filter' hperm]
      refine ⟨fun ⟨row, hrow, _, hfails⟩ => ⟨row, hrow, hfails⟩, fun ⟨row, hrow, hfails⟩ => ?_⟩
      by_cases hpinned : pinned h.schema filter' row = true
      · exact ⟨row, hrow, hpinned, hfails⟩
      · obtain ⟨pk, hpins, hother⟩ : ∃ pk, filter'.bind (findKey h.schema) = some pk ∧
            row[h.schema.primaryKey]? ≠ some pk := by
          rw [pinned_iff] at hpinned
          push Not at hpinned
          exact hpinned
        obtain ⟨f', rfl, hfind⟩ := Option.bind_eq_some_iff.mp hpins
        rw [findKey_conjuncts] at hfind
        obtain ⟨c, hc, hpk⟩ := List.exists_of_findSome?_eq_some hfind
        obtain ⟨row', hrow', hsame, hfails'⟩ :=
          hkeys c (hperm.mem_iff.mp hc) pk hpk ⟨row, hrow, hother, hfails⟩
        refine ⟨row', hrow', pinned_iff.mpr fun pk' hpins' => ?_, hfails'⟩
        rw [hsame, ← hpins, hpins']
    exact ⟨hall filter (List.Perm.refl _), fun filter' hperm =>
      (hall filter' hperm).trans (hall filter (List.Perm.refl _)).symm⟩

end Reordering

/-- k = 7 AND 1 / (k - 8) < 0, over a table that also has a row with k = 8. -/
def hiddenFilter : Expr :=
  .binary (.binary (.column "k") .eq (.literal (.integer 7))) .and
    (.binary (.binary (.literal (.integer 1)) .div
      (.binary (.column "k") .sub (.literal (.integer 8)))) .lt (.literal (.integer 0)))

/-- The lookup succeeds where the scan meets an error. -/
theorem access_path_fails_counterexample :
    (checkFilter (some hiddenFilter) sampleTable.schema : Except (ExecError Empty) _) = .ok () ∧
      ∃ rows, (RelTransaction.scan "a" : RowM (DbError Empty) _).exec (H := Reference.host true)
          sampleStore sampleTxn = (.ok rows, sampleTxn) ∧
        ¬ (@MatchingFails (Reference.host true) sampleStore sampleTxn "a" sampleTable.schema
            (some hiddenFilter) ↔
          ∃ row ∈ rows, Fails Empty (some hiddenFilter) sampleTable.schema row) := by
  refine ⟨rfl, _, exec_scan_eq (C := Reference.contract true) (h := sampleTable) (by decide +kernel)
    rowsUnderKeys_sample, fun hiff => ?_⟩
  have hrow : [.integer 8, .text "x"] ∈ @scanned (Reference.host true) sampleTxn sampleTable := by
    decide +kernel
  obtain ⟨e, -, he⟩ := hiff.mpr ⟨_, hrow, _, rfl, .divisionByZero, rfl⟩
  have hok : ((matchingRows "a" sampleTable.schema (some hiddenFilter) :
      RowM (ExecError Empty) _).exec (H := Reference.host true) sampleStore sampleTxn).1.toOption =
        some [[.integer 7, .text "x"]] := by decide +kernel
  rw [he] at hok
  cases hok

theorem access_path_fails_iff_sample :
    ∃ rows, (RelTransaction.scan "a" : RowM (DbError Empty) _).exec (H := Reference.host true)
        sampleStore sampleTxn = (.ok rows, sampleTxn) ∧
      (((@MatchingFails (Reference.host true) sampleStore sampleTxn "a" sampleTable.schema
              (some sampleFilter) ↔
            ∃ row ∈ rows, Fails Empty (some sampleFilter) sampleTable.schema row) ∧
          ∀ filter', (conjuncts filter').Perm (conjuncts (some sampleFilter)) →
            (@MatchingFails (Reference.host true) sampleStore sampleTxn "a" sampleTable.schema
                filter' ↔
              @MatchingFails (Reference.host true) sampleStore sampleTxn "a" sampleTable.schema
                (some sampleFilter))) ↔
        ∀ c ∈ conjuncts (some sampleFilter), ∀ pk, findKey sampleTable.schema c = some pk →
          (∃ row ∈ rows, row[0]? ≠ some pk ∧
            Fails Empty (some sampleFilter) sampleTable.schema row) →
          ∃ row ∈ rows, row[0]? = some pk ∧
            Fails Empty (some sampleFilter) sampleTable.schema row) :=
  access_path_fails_iff (C := Reference.contract true) (by decide +kernel) rowsUnderKeys_sample rfl

end Choam
