import Choam.Verify.Representation
import Choam.Verify.Evaluate

/-!
# Access paths

A filter in whose AND chain the primary key is compared with a constant is answered by one point
lookup, every other by a scan. Both find the same rows (`matchingRows_eq_scan`): where the filter
is TRUE, the row has the key that was found (`findKey_sound`), and the row of that key lies under
its own key of the store only.
-/

namespace Choam

open ByteString Overlay

variable {E : Type} {H : Host} {C : H.Contract} {P : Promises}

/-! ## What a TRUE filter says of the primary key -/

/-- The primary-key column is found by its name. -/
theorem Schema.findIdx_pkColumn (s : Schema) :
    s.columns.findIdx? (·.name = s.pkColumn.name) = some s.primaryKey := by
  rw [List.findIdx?_eq_some_iff_getElem]
  refine ⟨s.primaryKey_lt, by simp [Schema.pkColumn], fun j hj => ?_⟩
  have hne := List.pairwise_iff_getElem.mp s.nodup j s.primaryKey
    (by simpa using hj.trans s.primaryKey_lt) (by simpa using s.primaryKey_lt) hj
  intro heq
  exact hne (by simpa [Schema.pkColumn] using of_decide_eq_true heq)

theorem eval_pkColumn {schema : Schema} {row : Row} {v : Value}
    (h : (eval (.column schema.pkColumn.name) (some (schema, row)) : Except (ExecError E) _) = .ok v) :
    row[schema.primaryKey]? = some v := by
  rw [eval] at h
  simp only [schema.findIdx_pkColumn] at h
  cases hv : row[schema.primaryKey]? with
  | none =>
    rw [hv] at h
    cases h
  | some w =>
    rw [hv] at h
    rw [Except.ok.inj h]

/-- One operand is the primary-key column, the other is the one given. -/
theorem otherOperand_eq_some {pk : String} {l r o : Expr} (h : otherOperand pk l r = some o) :
    l = .column pk ∧ r = o ∨ r = .column pk ∧ l = o := by
  unfold otherOperand at h
  split at h
  next c =>
    split at h
    next hc =>
      cases h
      exact .inl ⟨by rw [hc], rfl⟩
    next =>
      split at h
      next c' =>
        split at h
        next hc' =>
          cases h
          exact .inr ⟨by rw [hc'], rfl⟩
        next => cases h
      next => cases h
  next c =>
    split at h
    next hc =>
      cases h
      exact .inr ⟨by rw [hc], rfl⟩
    next => cases h
  next => cases h

theorem findKey_eq {schema : Schema} {l r : Expr} {pk : Value} :
    findKey schema (.binary l .eq r) = some pk ↔ ∃ o,
      otherOperand schema.pkColumn.name l r = some o ∧
        (eval o none : Except (ExecError Empty) _) = .ok pk ∧
        lookupType pk schema.primaryKeyType = true := by
  rw [findKey]
  cases otherOperand schema.pkColumn.name l r with
  | none => simp
  | some o =>
    simp only [Option.some.injEq, exists_eq_left']
    cases (eval o none : Except (ExecError Empty) Value) with
    | error e => simp
    | ok v =>
      simp only [Except.ok.injEq]
      split
      next hv => exact ⟨fun h => ⟨Option.some.inj h, Option.some.inj h ▸ hv⟩, fun h => congrArg _ h.1⟩
      next hv => exact ⟨nofun, fun ⟨h, ht⟩ => absurd (h ▸ ht) hv⟩

/-- The value found is one that a literal of the key's type can have. -/
theorem findKey_type {schema : Schema} {f : Expr} {pk : Value} (h : findKey schema f = some pk) :
    lookupType pk schema.primaryKeyType = true := by
  induction f with
  | literal | column | isNull | unary => cases h
  | binary l op r ihl ihr =>
    cases op with
    | or | add | sub | mul | div | ne | lt | le | gt | ge => cases h
    | and =>
      rcases Option.or_eq_some_iff.mp h with h | ⟨-, h⟩
      · exact ihl h
      · exact ihr h
    | eq =>
      obtain ⟨o, -, -, htype⟩ := findKey_eq.mp h
      exact htype

/-- **A TRUE filter pins the primary key**, to the value that was found in it. -/
theorem findKey_sound {schema : Schema} {f : Expr} {pk : Value} {row : Row}
    (h : findKey schema f = some pk)
    (htrue : (eval f (some (schema, row)) : Except (ExecError E) _) = .ok (.boolean true)) :
    row[schema.primaryKey]? = some pk := by
  induction f with
  | literal | column | isNull | unary => cases h
  | binary l op r ihl ihr =>
    obtain ⟨a, ha, hrest⟩ := Except.bind_eq_ok.mp htrue
    obtain ⟨b, hb, hop⟩ := Except.bind_eq_ok.mp hrest
    cases op with
    | or | add | sub | mul | div | ne | lt | le | gt | ge => cases h
    | and =>
      obtain ⟨x, y, rfl, rfl, hxy⟩ := logical_eq_ok.mp hop
      have hboth : x = some true ∧ y = some true := by
        rcases x with _ | _ | _ <;> rcases y with _ | _ | _ <;> simp [and3, ofBool3] at hxy ⊢
      obtain ⟨rfl, rfl⟩ := hboth
      rcases Option.or_eq_some_iff.mp h with h | ⟨-, h⟩
      · exact ihl h ha
      · exact ihr h hb
    | eq =>
      obtain ⟨o, ho, hpk, -⟩ := findKey_eq.mp h
      have hsame : a = b := by
        rcases comparison3_eq_ok.mp hop with ⟨-, hv⟩ | ⟨ord, hord, hv⟩
        · cases hv
        · have heq : ord = .eq := by simpa using hv
          exact compare_eq (heq ▸ hord)
      subst hsame
      rcases otherOperand_eq_some ho with ⟨rfl, rfl⟩ | ⟨rfl, rfl⟩
      · rw [eval_of_none hpk] at hb
        rw [Except.ok.inj hb]
        exact eval_pkColumn ha
      · rw [eval_of_none hpk] at ha
        rw [Except.ok.inj ha]
        exact eval_pkColumn hb

/-- A lookup is only made for keys that the table can have. -/
theorem rowKey_of_lookupType (id : UInt32) {pk : Value} {ty : ColumnType}
    (h : lookupType pk ty = true) : ∃ k, rowKey id pk ty = .ok k := by
  rw [rowKey_isOk]
  cases pk <;> cases ty <;> first | rfl | cases h

/-! ## The two paths -/

/-- The filter is TRUE on the row. -/
def isKept (E : Type) (filter : Option Expr) (schema : Schema) (row : Row) : Bool :=
  (keepsRow filter schema row : Except (ExecError E) _).toOption == some true

theorem isKept_iff {filter : Option Expr} {schema : Schema} {row : Row} :
    isKept E filter schema row = true ↔
      (keepsRow filter schema row : Except (ExecError E) _) = .ok true := by
  unfold isKept
  cases (keepsRow filter schema row : Except (ExecError E) _) <;> simp [Except.toOption]

theorem keepsRow_true {f : Expr} {schema : Schema} {row : Row}
    (h : (keepsRow (some f) schema row : Except (ExecError E) _) = .ok true) :
    (eval f (some (schema, row)) : Except (ExecError E) _) = .ok (.boolean true) := by
  obtain ⟨v, hv, hkeep⟩ := Except.bind_eq_ok.mp h
  cases v with
  | boolean b =>
    cases Except.ok.inj hkeep
    exact hv
  | null => cases Except.ok.inj hkeep
  | integer | text | bytes => cases hkeep

/-- A filter that is a truth value by its type keeps a row or does not. -/
theorem keepsRow_isOk {filter : Option Expr} {schema : Schema} {row : Row}
    (hcheck : (checkFilter filter schema : Except (ExecError E) _) = .ok ())
    (hrow : schema.Typed row)
    (hval : ∀ f, filter = some f →
      ∃ v, (eval f (some (schema, row)) : Except (ExecError E) _) = .ok v) :
    ∃ b, (keepsRow filter schema row : Except (ExecError E) _) = .ok b := by
  cases filter with
  | none => exact ⟨true, rfl⟩
  | some f =>
    obtain ⟨v, hv⟩ := hval f rfl
    rw [keepsRow, hv]
    rcases eval_of_checkFilter hrow hcheck hv with rfl | ⟨b, rfl⟩
    · exact ⟨false, rfl⟩
    · exact ⟨b, rfl⟩

theorem keepRows_eq_filter {filter : Option Expr} {schema : Schema} {rows : List Row}
    (h : ∀ row ∈ rows, ∃ b, (keepsRow filter schema row : Except (ExecError E) _) = .ok b) :
    (keepRows filter schema rows : Except (ExecError E) _) =
      .ok (rows.filter (isKept E filter schema)) := by
  induction rows with
  | nil => rfl
  | cons row rows ih =>
    obtain ⟨b, hb⟩ := h row (by simp)
    have hkept : isKept E filter schema row = b := by simp [isKept, hb, Except.toOption]
    rw [keepRows, hb, ih fun row' hr => h row' (by simp [hr]), List.filter_cons, hkept]
    cases b <;> rfl

/-- The row that an entry stands for. -/
def rowOf (schema : Schema) (e : Bytes × Bytes) : Row := (decodeRow schema e.2).toOption.getD []

theorem rowOf_eq {schema : Schema} {e : Bytes × Bytes} {row : Row}
    (h : decodeRow schema e.2 = .ok row) : rowOf schema e = row := by
  simp [rowOf, h, Except.toOption]

theorem decodeRows_eq_map {schema : Schema} {entries : List (Bytes × Bytes)}
    (h : ∀ e ∈ entries, ∃ row, decodeRow schema e.2 = .ok row) :
    RelTransaction.decodeRows schema entries = .ok (entries.map (rowOf schema)) := by
  unfold RelTransaction.decodeRows
  induction entries with
  | nil => rfl
  | cons e entries ih =>
    obtain ⟨row, hrow⟩ := h e (by simp)
    rw [List.mapM_cons, hrow, ih fun e' he => h e' (by simp [he]), List.map_cons, rowOf_eq hrow]
    rfl

/-- In a list sorted by its keys, at most one entry has a given key. -/
theorem filter_key {entries : List (Bytes × Bytes)} {k : Bytes} {m : Option Bytes}
    (hsorted : entries.Pairwise fun a b => a.1 < b.1) (hmem : ∀ v, (k, v) ∈ entries ↔ m = some v) :
    entries.filter (·.1 = k) = (m.map (k, ·)).toList := by
  have hkey : ∀ {a b : Bytes × Bytes}, a.1 < b.1 → a.1 ≠ b.1 := fun hab heq =>
    List.lt_irrefl _ (heq ▸ hab)
  cases m with
  | none =>
    refine List.filter_eq_nil_iff.mpr fun e he => ?_
    obtain ⟨k', v⟩ := e
    rintro hk
    obtain rfl : k' = k := of_decide_eq_true hk
    cases (hmem v).mp he
  | some v =>
    obtain ⟨before, after, rfl⟩ := List.append_of_mem ((hmem v).mpr rfl)
    obtain ⟨-, hafter, hbefore⟩ := List.pairwise_append.mp hsorted
    obtain ⟨hhead, -⟩ := List.pairwise_cons.mp hafter
    have h₁ : before.filter (·.1 = k) = [] := List.filter_eq_nil_iff.mpr fun e he =>
      fun h => hkey (hbefore e he (k, v) (by simp)) (of_decide_eq_true h)
    have h₂ : after.filter (·.1 = k) = [] := List.filter_eq_nil_iff.mpr fun e he =>
      fun h => hkey (hhead e he) (of_decide_eq_true h).symm
    simp [List.filter_append, h₁, h₂]

section Paths

variable {s : H.Store} {t : H.Txn} {table : String} {h : TableHandle} {filter : Option Expr}

/-- Every row of the table that the transaction sees lies under the key of its own primary key. -/
def RowsUnderKeys (C : H.Contract) (t : H.Txn) (h : TableHandle) : Prop :=
  ∀ k v, rowKeyPrefix h.tableId <+: k → C.view t k = some v → ∃ pk row,
    rowKey h.tableId pk h.schema.primaryKeyType = .ok k ∧ decodeRow h.schema v = .ok row ∧
      row[h.schema.primaryKey]? = some pk

/-- The filter has a value on every row of the table that the transaction sees. -/
def FilterTotal (C : H.Contract) (t : H.Txn) (h : TableHandle) (filter : Option Expr) : Prop :=
  ∀ f, filter = some f → ∀ k v row, rowKeyPrefix h.tableId <+: k → C.view t k = some v →
    decodeRow h.schema v = .ok row →
      ∃ a, (eval f (some (h.schema, row)) : Except (ExecError H.StoreError) _) = .ok a

theorem exec_scan_eq (hh : lookupTable (C.committed s) table = .ok (some h))
    (hrows : RowsUnderKeys C t h) :
    (RelTransaction.scan table : RowM (DbError H.StoreError) _).exec s t =
      (.ok ((H.scan t (rowKeyPrefix h.tableId)).map (rowOf h.schema)), t) := by
  rw [exec_scan_of (tableAt_committed hh), decodeRows_eq_map fun e he => ?_]
  · rfl
  · obtain ⟨hp, hv⟩ := C.mem_scan_view.mp he
    obtain ⟨pk, row, -, hrow, -⟩ := hrows _ _ hp hv
    exact ⟨row, hrow⟩

theorem exec_read_eq (hh : lookupTable (C.committed s) table = .ok (some h))
    (hrows : RowsUnderKeys C t h) {pk : Value} {k : Bytes}
    (hk : rowKey h.tableId pk h.schema.primaryKeyType = .ok k) :
    (RelTransaction.read table pk : RowM (DbError H.StoreError) _).exec s t =
      (.ok ((C.view t k).map fun v => rowOf h.schema (k, v)), t) := by
  obtain ⟨c, -, hkc⟩ := rowKey_ok hk
  rw [exec_read_of pk (tableAt_committed hh), hk]
  dsimp only
  rw [C.read_view]
  cases hv : C.view t k with
  | none => rfl
  | some v =>
    obtain ⟨-, row, -, hrow, -⟩ := hrows k v (hkc ▸ List.prefix_append _ _) hv
    have hrowOf : rowOf h.schema (k, v) = row := rowOf_eq hrow
    rw [Option.map_some, hrowOf]
    dsimp only
    rw [hrow]
    rfl

/-- The row has the primary key that the filter was found to pin, if it pins one. -/
def pinned (schema : Schema) (filter : Option Expr) (row : Row) : Bool :=
  match filter.bind (findKey schema) with
  | none => true
  | some pk => row[schema.primaryKey]? = some pk

theorem pinned_iff {schema : Schema} {row : Row} : pinned schema filter row = true ↔
    ∀ pk, filter.bind (findKey schema) = some pk → row[schema.primaryKey]? = some pk := by
  unfold pinned
  cases filter.bind (findKey schema) <;> simp

/-- **The candidates** are, on either path, the rows of the table that the filter may be TRUE on
as far as its path says. -/
theorem exec_candidateRows_eq (hh : lookupTable (C.committed s) table = .ok (some h))
    (hrows : RowsUnderKeys C t h)
    (hcheck : (checkFilter filter h.schema : Except (ExecError H.StoreError) _) = .ok ()) :
    (candidateRows table h.schema filter : RowM (ExecError H.StoreError) _).exec s t =
      (.ok (((H.scan t (rowKeyPrefix h.tableId)).map (rowOf h.schema)).filter
        (pinned h.schema filter)), t) := by
  unfold candidateRows accessPath
  simp only [RowM.exec_bind, RowM.exec_ofExcept, hcheck, Except.mapError_ok]
  cases hpath : filter.bind (findKey h.schema) with
  | none =>
    have hall : pinned h.schema filter = fun _ => true := funext fun row => by simp [pinned, hpath]
    simp only [RowM.exec_adapt, exec_scan_eq hh hrows, Except.mapError_ok, hall,
      List.filter_true]
  | some pk =>
    obtain ⟨f, rfl, hfind⟩ := Option.bind_eq_some_iff.mp hpath
    obtain ⟨k, hk⟩ := rowKey_of_lookupType h.tableId (findKey_type hfind)
    obtain ⟨c, -, hkc⟩ := rowKey_ok hk
    have hone : (H.scan t (rowKeyPrefix h.tableId)).filter (·.1 = k) =
        ((C.view t k).map (k, ·)).toList := by
      refine filter_key (C.scan_sorted t _) fun v => ?_
      rw [C.mem_scan_view]
      exact and_iff_right (hkc ▸ List.prefix_append _ _)
    have hpinned : ((H.scan t (rowKeyPrefix h.tableId)).map (rowOf h.schema)).filter
        (pinned h.schema (some f)) =
          ((H.scan t (rowKeyPrefix h.tableId)).filter (·.1 = k)).map (rowOf h.schema) := by
      rw [List.filter_map]
      refine congrArg _ (List.filter_congr fun e he => ?_)
      obtain ⟨hp, hv⟩ := C.mem_scan_view.mp he
      obtain ⟨pk', row, hk', hrow, hpk'⟩ := hrows _ _ hp hv
      rw [Function.comp_apply, rowOf_eq hrow, pinned, hpath, hpk', Bool.eq_iff_iff,
        decide_eq_true_iff, decide_eq_true_iff, Option.some.injEq]
      constructor
      · rintro rfl
        exact Except.ok.inj (hk'.symm.trans hk)
      · intro hkey
        exact rowKey_inj (hkey ▸ hk') hk
    simp only [RowM.exec_bind, RowM.exec_adapt, exec_read_eq hh hrows hk, Except.mapError_ok,
      RowM.exec_pure, hpinned, hone]
    cases C.view t k <;> rfl

/-- What a scan finds are rows of the schema. -/
theorem typed_of_scan (hrows : RowsUnderKeys C t h) {row : Row}
    (hrow : row ∈ (H.scan t (rowKeyPrefix h.tableId)).map (rowOf h.schema)) :
    h.schema.Typed row ∧ ∃ k v, rowKeyPrefix h.tableId <+: k ∧ C.view t k = some v ∧
      decodeRow h.schema v = .ok row := by
  obtain ⟨e, he, rfl⟩ := List.mem_map.mp hrow
  obtain ⟨hp, hv⟩ := C.mem_scan_view.mp he
  obtain ⟨pk, row, -, hrow, -⟩ := hrows _ _ hp hv
  rw [rowOf_eq hrow]
  exact ⟨(decodeRow_types hrow).1, _, _, hp, hv, hrow⟩

/-- The rows found, on either path, are those of the table on which the filter is TRUE. -/
theorem exec_matchingRows_eq (hh : lookupTable (C.committed s) table = .ok (some h))
    (hrows : RowsUnderKeys C t h)
    (hcheck : (checkFilter filter h.schema : Except (ExecError H.StoreError) _) = .ok ())
    (htotal : FilterTotal C t h filter) :
    (matchingRows table h.schema filter : RowM (ExecError H.StoreError) _).exec s t =
      (.ok (((H.scan t (rowKeyPrefix h.tableId)).map (rowOf h.schema)).filter
        (isKept H.StoreError filter h.schema)), t) := by
  have hkeep := @keepRows_eq_filter H.StoreError filter h.schema
    (((H.scan t (rowKeyPrefix h.tableId)).map (rowOf h.schema)).filter
      (pinned h.schema filter)) fun row hrow => by
    obtain ⟨htyped, k, v, hp, hv, hdecode⟩ := typed_of_scan hrows (List.mem_of_mem_filter hrow)
    exact keepsRow_isOk hcheck htyped fun f hf => htotal f hf k v row hp hv hdecode
  unfold matchingRows
  simp only [RowM.exec_bind, exec_candidateRows_eq hh hrows hcheck, RowM.exec_ofExcept, hkeep,
    Except.mapError_ok, List.filter_filter]
  -- a row that the filter keeps has the key that it pins
  refine congrArg (fun rows => (Except.ok rows, t)) (List.filter_congr fun row _ => ?_)
  cases hkept : isKept H.StoreError filter h.schema row with
  | false => rfl
  | true =>
    refine pinned_iff.mpr fun pk hpk => ?_
    obtain ⟨f, rfl, hfind⟩ := Option.bind_eq_some_iff.mp hpk
    exact findKey_sound hfind (keepsRow_true (isKept_iff.mp hkept))

/-- **Point lookups are scans**: whatever path the filter is answered by, the rows found are those
that a scan of the whole table finds and on which the filter is TRUE, in the same order. -/
theorem matchingRows_eq_scan (hh : lookupTable (C.committed s) table = .ok (some h))
    (hrows : RowsUnderKeys C t h)
    (hcheck : (checkFilter filter h.schema : Except (ExecError H.StoreError) _) = .ok ())
    (htotal : FilterTotal C t h filter) : ∃ rows,
      (RelTransaction.scan table : RowM (DbError H.StoreError) _).exec s t = (.ok rows, t) ∧
      (matchingRows table h.schema filter : RowM (ExecError H.StoreError) _).exec s t =
        (.ok (rows.filter (isKept H.StoreError filter h.schema)), t) :=
  ⟨_, exec_scan_eq hh hrows, exec_matchingRows_eq hh hrows hcheck htotal⟩

/-- In every reachable store the rows do lie under their keys. -/
theorem TxnOk.rowsUnderKeys (hs : Sound C P s) (ht : TxnOk C P t s) (hv : P.values)
    (hfew : FewTables (C.committed s)) (hh : lookupTable (C.committed s) table = .ok (some h)) :
    RowsUnderKeys C t h := by
  intro k v hp hview
  obtain ⟨ts, hts, -⟩ := hs.catalog
  have hkey := isRowKey_of_isPrefix hp
  obtain ⟨pk, row, hk, hrow, hpk, -⟩ :=
    (ht.rows hv k v hkey hview).decode hts (hts.length_lt hfew).le hh hp
  exact ⟨pk, row, hk, hrow, hpk⟩

end Paths

/-- The table that `createSample` creates first. -/
def sampleTable : TableHandle :=
  ⟨0, ⟨"a", [⟨"k", .integer, false⟩, ⟨"v", .text, true⟩], 0, by decide, by decide, by decide⟩⟩

/-- v = 'x' AND 3 + 4 = k. -/
def sampleFilter : Expr :=
  .binary (.binary (.column "v") .eq (.literal (.text "x"))) .and
    (.binary (.binary (.literal (.integer 3)) .add (.literal (.integer 4))) .eq (.column "k"))

/-- A store with two rows in that table. -/
def sampleStore : List Reference.WriteList :=
  (sampleRun [(0, .executeStatement createSample), (1, .executeStatement (insertSample 7)),
    (1, .executeStatement (insertSample 8))]).shared

/-- What the first transaction on that store sees. -/
def sampleTxn : Reference.Txn := ((Reference.host true).begin sampleStore).1

theorem entries_sample : ∀ e ∈ (Reference.host true).scan sampleTxn (rowKeyPrefix 0), ∃ pk row,
    decodeRow sampleTable.schema e.2 = .ok (pk :: row) ∧ rowKey 0 pk .integer = .ok e.1 ∧
      ∃ v, (eval sampleFilter (some (sampleTable.schema, pk :: row)) :
        Except (ExecError Empty) _) = .ok v := by
  have hall : ((Reference.host true).scan sampleTxn (rowKeyPrefix 0)).all (fun e =>
      (decodeRow sampleTable.schema e.2).toOption.any fun row => row.head?.any fun pk =>
        (rowKey 0 pk .integer).toOption == some e.1 &&
        (eval sampleFilter (some (sampleTable.schema, row)) :
          Except (ExecError Empty) _).toOption.isSome) = true := by decide +kernel
  intro e he
  have hone := List.all_eq_true.mp hall e he
  obtain ⟨row, hrow, hone⟩ := (Option.any_eq_true _ _).mp hone
  obtain ⟨pk, hhead, hone⟩ := (Option.any_eq_true _ _).mp hone
  obtain ⟨row, rfl⟩ := List.head?_eq_some_iff.mp hhead
  obtain ⟨hk, hv⟩ := Bool.and_eq_true_iff.mp hone
  obtain ⟨v, hv⟩ := Option.isSome_iff_exists.mp hv
  exact ⟨pk, row, Except.toOption_eq_some.mp hrow, Except.toOption_eq_some.mp (by simpa using hk),
    v, Except.toOption_eq_some.mp hv⟩

theorem rowsUnderKeys_sample : @RowsUnderKeys (Reference.host true) (Reference.contract true)
    sampleTxn sampleTable := by
  intro k v hp hv
  obtain ⟨pk, row, hrow, hk, -⟩ := entries_sample (k, v) (Reference.mem_scan.mpr ⟨hp, hv⟩)
  exact ⟨pk, pk :: row, hk, hrow, rfl⟩

theorem matchingRows_eq_scan_sample :
    let t := ((Reference.host true).begin sampleStore).1
    ∃ rows, (RelTransaction.scan "a" : RowM (DbError Empty) _).exec (H := Reference.host true)
        sampleStore t = (.ok rows, t) ∧
      (matchingRows "a" sampleTable.schema (some sampleFilter) : RowM (ExecError Empty) _).exec
        (H := Reference.host true) sampleStore t =
          (.ok (rows.filter (isKept Empty (some sampleFilter) sampleTable.schema)), t) := by
  refine matchingRows_eq_scan (C := Reference.contract true) (by decide +kernel)
    rowsUnderKeys_sample rfl fun f hf k v row hp hv hrow => ?_
  cases hf
  obtain ⟨pk, row', hrow', -, hb⟩ := entries_sample (k, v) (Reference.mem_scan.mpr ⟨hp, hv⟩)
  rw [hrow] at hrow'
  cases hrow'
  exact hb

end Choam
