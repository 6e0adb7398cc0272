import Mathlib.Data.List.Pairwise
import Choam.Verify.KeySpace
import Choam.Verify.AccessPath
import Choam.Verify.Relational

/-!
# Statements refine the relational model

The view of a transaction represents a table when the rows of that table lie under the keys of the
view, each under its own (`Represents`). Every statement on rows does on the view what the reference
does on the table (`Relational.effect`), as far as what it stores fits its length fields.
-/

namespace Choam

open ByteString Overlay Interleave Relational

variable {H : Host} {C : H.Contract} {s : H.Store} {t t' : H.Txn} {h : TableHandle}
  {row a b : Row} {rows : List Row} {k k' : Bytes}

/-! ## Rows under keys -/

/-- The row belongs under the key. -/
def Keyed (h : TableHandle) (row : Row) (k : Bytes) : Prop :=
  ∃ pk, row[h.schema.primaryKey]? = some pk ∧ rowKey h.tableId pk h.schema.primaryKeyType = .ok k

theorem exists_keyed (hrow : h.schema.IsRow row) : ∃ k, Keyed h row k := by
  obtain ⟨pk, hpk, hty⟩ := hrow.primaryKey
  obtain ⟨k, hk⟩ := (@rowKey_isOk h.tableId _ _).mpr hty
  exact ⟨k, pk, hpk, hk⟩

theorem Keyed.unique (ha : Keyed h row k) (hb : Keyed h row k') : k = k' := by
  obtain ⟨pk, hpk, hk⟩ := ha
  obtain ⟨pk', hpk', hk'⟩ := hb
  cases hpk.symm.trans hpk'
  exact Except.ok.inj (hk.symm.trans hk')

theorem Keyed.under (ha : Keyed h row k) : rowKeyPrefix h.tableId <+: k := by
  obtain ⟨pk, -, hk⟩ := ha
  obtain ⟨c, -, rfl⟩ := rowKey_ok hk
  exact List.prefix_append _ _

/-- Rows share a key just when they share the primary key. -/
theorem Keyed.eq_iff (ha : Keyed h a k) (hb : Keyed h b k') :
    k = k' ↔ a[h.schema.primaryKey]? = b[h.schema.primaryKey]? := by
  obtain ⟨pk, hpk, hk⟩ := ha
  obtain ⟨pk', hpk', hk'⟩ := hb
  rw [hpk, hpk', Option.some.injEq]
  constructor
  · rintro rfl
    exact rowKey_inj hk hk'
  · rintro rfl
    exact Except.ok.inj (hk.symm.trans hk')

/-- Rows are ordered as their keys are. -/
theorem Keyed.before_iff (ha : Keyed h a k) (hb : Keyed h b k') :
    before h.schema a b ↔ k < k' := by
  obtain ⟨pk, hpk, hk⟩ := ha
  obtain ⟨pk', hpk', hk'⟩ := hb
  obtain ⟨c, hc, rfl⟩ := rowKey_ok hk
  obtain ⟨c', hc', rfl⟩ := rowKey_ok hk'
  rw [before, List.getD_eq_getElem?_getD, List.getD_eq_getElem?_getD, hpk, hpk', Option.getD_some,
    Option.getD_some, less_ideal, orderValues_of_compare (compare_encodeKeyComponent hc hc'),
    append_lt_append_left, beq_iff_eq]
  unfold lexCmp compareOfLessAndEq
  by_cases hlt : c < c'
  · simp [hlt]
  · rw [if_neg hlt]
    split <;> simp [hlt]

/-- The bytes are those of the row, or decode to it. -/
def Stores (schema : Schema) (row : Row) (v : Bytes) : Prop :=
  encodeRow schema row = .ok v ∨ decodeRow schema v = .ok row

theorem Stores.decode {schema : Schema} {v : Bytes} (hv : Stores schema row v)
    (hfits : Row.Fits row) : decodeRow schema v = .ok row :=
  hv.elim (fun henc => decodeRow_encodeRow henc hfits) id

/-- The rows of the table `h` that the transaction sees are `rows`, each under its own key. -/
structure Represents (C : H.Contract) (t : H.Txn) (h : TableHandle) (rows : List Row) : Prop where
  sorted : rows.Pairwise (before h.schema)
  typed : ∀ row ∈ rows, h.schema.IsRow row
  stored : ∀ row ∈ rows, ∀ k, Keyed h row k → ∃ v, C.view t k = some v ∧ Stores h.schema row v
  only : ∀ k v, rowKeyPrefix h.tableId <+: k → C.view t k = some v → ∃ row ∈ rows, Keyed h row k

/-- What a scan of the table decodes to. -/
def tableRows (H : Host) (t : H.Txn) (h : TableHandle) : List Row :=
  (H.scan t (rowKeyPrefix h.tableId)).map (rowOf h.schema)

/-- Every row of the table that the transaction sees is a row of its schema, under its own key. -/
def RowsTyped (C : H.Contract) (t : H.Txn) (h : TableHandle) : Prop :=
  ∀ k v, rowKeyPrefix h.tableId <+: k → C.view t k = some v →
    ∃ row, Keyed h row k ∧ decodeRow h.schema v = .ok row ∧ h.schema.IsRow row

theorem RowsTyped.rowsUnderKeys (hrows : RowsTyped C t h) : RowsUnderKeys C t h := by
  intro k v hp hv
  obtain ⟨row, ⟨pk, hpk, hk⟩, hdecode, -⟩ := hrows k v hp hv
  exact ⟨pk, row, hk, hdecode, hpk⟩

theorem pairwise_before_scan {f : Bytes × Bytes → Row}
    (hf : ∀ e ∈ H.scan t (rowKeyPrefix h.tableId), Keyed h (f e) e.1) (C : H.Contract) :
    ((H.scan t (rowKeyPrefix h.tableId)).map f).Pairwise (before h.schema) := by
  rw [List.pairwise_map]
  exact (C.scan_sorted t _).imp_of_mem fun ha hb hlt => ((hf _ ha).before_iff (hf _ hb)).mpr hlt

theorem RowsTyped.represents (hrows : RowsTyped C t h) : Represents C t h (tableRows H t h) := by
  have hentry : ∀ e ∈ H.scan t (rowKeyPrefix h.tableId), Keyed h (rowOf h.schema e) e.1 ∧
      decodeRow h.schema e.2 = .ok (rowOf h.schema e) ∧ h.schema.IsRow (rowOf h.schema e) := by
    intro e he
    obtain ⟨hp, hv⟩ := C.mem_scan_view.mp he
    obtain ⟨row, hkey, hdecode, hrow⟩ := hrows _ _ hp hv
    rw [rowOf_eq hdecode]
    exact ⟨hkey, hdecode, hrow⟩
  refine ⟨pairwise_before_scan (fun e he => (hentry e he).1) C, fun row hrow => ?_,
    fun row hrow k hk => ?_, fun k v hp hv => ?_⟩
  · obtain ⟨e, he, rfl⟩ := List.mem_map.mp hrow
    exact (hentry e he).2.2
  · obtain ⟨e, he, rfl⟩ := List.mem_map.mp hrow
    obtain rfl := hk.unique (hentry e he).1
    exact ⟨e.2, (C.mem_scan_view.mp he).2, .inr (hentry e he).2.1⟩
  · have he := C.mem_scan_view.mpr ⟨hp, hv⟩
    exact ⟨_, List.mem_map_of_mem he, (hentry _ he).1⟩

namespace Represents

theorem entry (hrep : Represents C t h rows) (hfits : ∀ row ∈ rows, Row.Fits row) {v : Bytes}
    (hp : rowKeyPrefix h.tableId <+: k) (hv : C.view t k = some v) :
    ∃ row ∈ rows, Keyed h row k ∧ decodeRow h.schema v = .ok row := by
  obtain ⟨row, hrow, hkey⟩ := hrep.only k v hp hv
  obtain ⟨v', hv', hstores⟩ := hrep.stored row hrow k hkey
  cases hv.symm.trans hv'
  exact ⟨row, hrow, hkey, hstores.decode (hfits row hrow)⟩

theorem rowsTyped (hrep : Represents C t h rows) (hfits : ∀ row ∈ rows, Row.Fits row) :
    RowsTyped C t h := by
  intro k v hp hv
  obtain ⟨row, hrow, hkey, hdecode⟩ := hrep.entry hfits hp hv
  exact ⟨row, hkey, hdecode, hrep.typed row hrow⟩

/-- The rows represented are those that a scan decodes to. -/
theorem tableRows_eq (hrep : Represents C t h rows) (hfits : ∀ row ∈ rows, Row.Fits row) :
    tableRows H t h = rows := by
  have hkeyed : ∀ a ∈ rows, ∀ b ∈ rows, before h.schema a b → ¬ before h.schema b a := by
    intro a ha b hb hab hba
    obtain ⟨k, hk⟩ := exists_keyed (hrep.typed a ha)
    obtain ⟨k', hk'⟩ := exists_keyed (hrep.typed b hb)
    exact List.lt_asymm ((hk.before_iff hk').mp hab) ((hk'.before_iff hk).mp hba)
  have hmem : ∀ row, row ∈ tableRows H t h ↔ row ∈ rows := by
    intro row
    constructor
    · intro hrow
      obtain ⟨e, he, rfl⟩ := List.mem_map.mp hrow
      obtain ⟨hp, hv⟩ := C.mem_scan_view.mp he
      obtain ⟨row, hrow, -, hdecode⟩ := hrep.entry hfits hp hv
      rwa [rowOf_eq hdecode]
    · intro hrow
      obtain ⟨k, hk⟩ := exists_keyed (hrep.typed row hrow)
      obtain ⟨v, hv, hstores⟩ := hrep.stored row hrow k hk
      have hdecode := hstores.decode (hfits row hrow)
      exact List.mem_map.mpr ⟨(k, v), C.mem_scan_view.mpr ⟨hk.under, hv⟩, rowOf_eq hdecode⟩
  have hsorted := (hrep.rowsTyped hfits).represents.sorted
  have hnodup : ∀ l : List Row, (∀ row ∈ l, row ∈ rows) → l.Pairwise (before h.schema) →
      l.Nodup := by
    intro l hl hpair
    refine hpair.imp_of_mem fun {a b} ha hb hab heq => ?_
    subst heq
    exact hkeyed a (hl a ha) a (hl a ha) hab hab
  have hperm := (List.perm_ext_iff_of_nodup (hnodup _ (fun row => (hmem row).mp) hsorted)
    (hnodup _ (fun _ => id) hrep.sorted)).mpr hmem
  exact hperm.eq_of_pairwise
    (fun a b ha hb hab hba => absurd hba (hkeyed a ((hmem a).mp ha) b hb hab)) hsorted hrep.sorted

end Represents

/-! ## What writes do to the rows -/

theorem pairwise_orderedInsert {α : Type} {r : α → α → Prop} [DecidableRel r] {a : α} {l : List α}
    (hl : l.Pairwise r) (htotal : ∀ b ∈ l, r a b ∨ r b a)
    (htrans : ∀ b ∈ l, ∀ c ∈ l, r a b → r b c → r a c) : (l.orderedInsert r a).Pairwise r := by
  induction l with
  | nil => simp
  | cons b l ih =>
    obtain ⟨hb, hl⟩ := List.pairwise_cons.mp hl
    rw [List.orderedInsert_cons]
    split
    next hab =>
      refine List.pairwise_cons.mpr ⟨fun c hc => ?_, List.pairwise_cons.mpr ⟨hb, hl⟩⟩
      rcases List.mem_cons.mp hc with rfl | hc
      · exact hab
      · exact htrans b (by simp) c (by simp [hc]) hab (hb c hc)
    next hab =>
      refine List.pairwise_cons.mpr ⟨fun c hc => ?_, ih hl (fun c hc => htotal c (by simp [hc]))
        fun c hc d hd => htrans c (by simp [hc]) d (by simp [hd])⟩
      rcases (List.mem_orderedInsert r).mp hc with rfl | hc
      · exact (htotal b (by simp)).resolve_left hab
      · exact hb c hc

namespace Represents

/-- A row with a new key. -/
theorem insert (hrep : Represents C t h rows) {bs : Bytes} (hrow : h.schema.IsRow row)
    (hkey : Keyed h row k) (hbs : encodeRow h.schema row = .ok bs)
    (hnew : ∀ r ∈ rows, r[h.schema.primaryKey]? ≠ row[h.schema.primaryKey]?) :
    Represents C (H.put t k bs) h (rows.orderedInsert (before h.schema) row) := by
  have hne : ∀ r ∈ rows, ∀ k', Keyed h r k' → k' ≠ k := fun r hr k' hk' =>
    mt (hk'.eq_iff hkey).mp (hnew r hr)
  refine ⟨pairwise_orderedInsert hrep.sorted (fun r hr => ?_) fun r hr r' hr' => ?_,
    fun r hr => ?_, fun r hr k' hk' => ?_, fun k' v hp hv => ?_⟩
  · obtain ⟨k', hk'⟩ := exists_keyed (hrep.typed r hr)
    rw [hkey.before_iff hk', hk'.before_iff hkey]
    rcases ByteString.lt_or_eq_or_gt k k' with hlt | heq | hgt
    · exact .inl hlt
    · exact absurd heq.symm (hne r hr k' hk')
    · exact .inr hgt
  · obtain ⟨k₁, hk₁⟩ := exists_keyed (hrep.typed r hr)
    obtain ⟨k₂, hk₂⟩ := exists_keyed (hrep.typed r' hr')
    rw [hkey.before_iff hk₁, hk₁.before_iff hk₂, hkey.before_iff hk₂]
    exact List.lt_trans
  · rcases (List.mem_orderedInsert _).mp hr with rfl | hr
    · exact hrow
    · exact hrep.typed r hr
  · rw [C.view_put]
    rcases (List.mem_orderedInsert _).mp hr with rfl | hr
    · obtain rfl := hk'.unique hkey
      exact ⟨bs, Function.update_self .., .inl hbs⟩
    · rw [Function.update_of_ne (hne r hr k' hk')]
      exact hrep.stored r hr k' hk'
  · rw [C.view_put, Function.update_apply] at hv
    split at hv
    next heq => exact ⟨row, by simp, heq ▸ hkey⟩
    next =>
      obtain ⟨r, hr, hk'⟩ := hrep.only k' v hp hv
      exact ⟨r, by simp [hr], hk'⟩

/-- No two rows share a key. -/
theorem eq_of_keyed (hrep : Represents C t h rows) (ha : a ∈ rows) (hb : b ∈ rows)
    (hka : Keyed h a k) (hkb : Keyed h b k) : a = b := by
  by_contra hne
  have hpair : rows.Pairwise fun a b => before h.schema a b ∨ before h.schema b a :=
    hrep.sorted.imp .inl
  have hsymm : Std.Symm fun a b => before h.schema a b ∨ before h.schema b a :=
    ⟨fun _ _ => Or.symm⟩
  rcases hpair.forall ha hb hne with hab | hba
  · exact List.lt_irrefl _ ((hka.before_iff hkb).mp hab)
  · exact List.lt_irrefl _ ((hkb.before_iff hka).mp hba)

/-- Rows overwritten where they are. -/
theorem update (hrep : Represents C t h rows) {p : Row → Bool} {f : Row → Row}
    (hf : ∀ row ∈ rows, p row → h.schema.IsRow (f row) ∧
      (f row)[h.schema.primaryKey]? = row[h.schema.primaryKey]?)
    (hwritten : ∀ row ∈ rows, p row → ∀ k, Keyed h row k →
      ∃ bs, encodeRow h.schema (f row) = .ok bs ∧ C.view t' k = some bs)
    (hsame : ∀ k, (∀ row ∈ rows, p row → ¬ Keyed h row k) → C.view t' k = C.view t k) :
    Represents C t' h (rows.map fun row => if p row then f row else row) := by
  have hkeyed : ∀ row ∈ rows, ∀ k, Keyed h (if p row then f row else row) k ↔ Keyed h row k := by
    intro row hrow k
    split
    next hp => rw [Keyed, Keyed, (hf row hrow hp).2]
    next => rfl
  have hother : ∀ row ∈ rows, ¬ p row → ∀ k, Keyed h row k → C.view t' k = C.view t k :=
    fun row hrow hp k hk => hsame k fun row' hrow' hp' hk' =>
      hp (hrep.eq_of_keyed hrow hrow' hk hk' ▸ hp')
  refine ⟨?_, fun r hr => ?_, fun r hr k hk => ?_, fun k v hpre hv => ?_⟩
  · rw [List.pairwise_map]
    refine hrep.sorted.imp_of_mem fun {a b} ha hb hab => ?_
    obtain ⟨k, hk⟩ := exists_keyed (hrep.typed a ha)
    obtain ⟨k', hk'⟩ := exists_keyed (hrep.typed b hb)
    rw [hk.before_iff hk'] at hab
    exact (((hkeyed a ha k).mpr hk).before_iff ((hkeyed b hb k').mpr hk')).mpr hab
  · obtain ⟨row, hrow, rfl⟩ := List.mem_map.mp hr
    split
    next hp => exact (hf row hrow hp).1
    next => exact hrep.typed row hrow
  · obtain ⟨row, hrow, rfl⟩ := List.mem_map.mp hr
    have hk := (hkeyed row hrow k).mp hk
    by_cases hp : p row
    · obtain ⟨bs, hbs, hview⟩ := hwritten row hrow hp k hk
      rw [if_pos hp]
      exact ⟨bs, hview, .inl hbs⟩
    · rw [if_neg hp, hother row hrow hp k hk]
      exact hrep.stored row hrow k hk
  · obtain ⟨row, hrow, hk⟩ : ∃ row ∈ rows, Keyed h row k := by
      by_cases hex : ∃ row ∈ rows, p row ∧ Keyed h row k
      · obtain ⟨row, hrow, -, hk⟩ := hex
        exact ⟨row, hrow, hk⟩
      · rw [hsame k fun row hrow hp hk => hex ⟨row, hrow, hp, hk⟩] at hv
        exact hrep.only k v hpre hv
    exact ⟨_, List.mem_map_of_mem hrow, (hkeyed row hrow k).mpr hk⟩

/-- Rows deleted. -/
theorem delete (hrep : Represents C t h rows) {p : Row → Bool}
    (hgone : ∀ row ∈ rows, p row → ∀ k, Keyed h row k → C.view t' k = none)
    (hsame : ∀ k, (∀ row ∈ rows, p row → ¬ Keyed h row k) → C.view t' k = C.view t k) :
    Represents C t' h (rows.filter fun row => !p row) := by
  refine ⟨hrep.sorted.filter _, fun r hr => hrep.typed r (List.mem_of_mem_filter hr),
    fun r hr k hk => ?_, fun k v hpre hv => ?_⟩
  · obtain ⟨hr, hp⟩ := List.mem_filter.mp hr
    rw [hsame k fun row hrow hp' hk' => ?_]
    · exact hrep.stored r hr k hk
    · rw [hrep.eq_of_keyed hrow hr hk' hk] at hp'
      simp [hp'] at hp
  · by_cases hex : ∃ row ∈ rows, p row ∧ Keyed h row k
    · obtain ⟨row, hrow, hp, hk⟩ := hex
      rw [hgone row hrow hp k hk] at hv
      cases hv
    · rw [hsame k fun row hrow hp hk => hex ⟨row, hrow, hp, hk⟩] at hv
      obtain ⟨row, hrow, hk⟩ := hrep.only k v hpre hv
      refine ⟨row, List.mem_filter.mpr ⟨hrow, ?_⟩, hk⟩
      cases hp : p row with
      | false => rfl
      | true => exact absurd ⟨row, hrow, hp, hk⟩ hex

end Represents

/-! ## Running the loops -/

section Loops

variable {table : String} {e : ExecError H.StoreError}

/-- The keys outside of the table's range are as before. -/
def Frame (C : H.Contract) (h : TableHandle) (t t' : H.Txn) : Prop :=
  ∀ k, ¬ rowKeyPrefix h.tableId <+: k → C.view t' k = C.view t k

/-- A row that can be encoded is written under its key. -/
theorem exec_write_keyed (hh : lookupTable (C.committed s) table = .ok (some h))
    (hk : Keyed h row k) {bs : Bytes} (hbs : encodeRow h.schema row = .ok bs) :
    (RelTransaction.write table row : RowM (DbError H.StoreError) _).exec s t =
      (.ok (), H.put t k bs) := by
  obtain ⟨pk, hpk, hkey⟩ := hk
  simp only [exec_write_eq row (tableAt_committed hh), hpk, hkey, hbs]

theorem exec_write_error (hh : lookupTable (C.committed s) table = .ok (some h))
    (hk : Keyed h row k) {e : RowError} (he : encodeRow h.schema row = .error e) :
    (RelTransaction.write table row : RowM (DbError H.StoreError) _).exec s t =
      (.error (.row e), t) := by
  obtain ⟨pk, hpk, hkey⟩ := hk
  simp only [exec_write_eq row (tableAt_committed hh), hpk, hkey, he]

/-- **An UPDATE's loop** writes the new rows under the keys of the old ones, or fails. -/
theorem exec_updateRows_eq (hh : lookupTable (C.committed s) table = .ok (some h))
    {targets : List (ℕ × Expr)} {f : Row → Row} (htyped : ∀ row ∈ rows, h.schema.IsRow row)
    (hassign : ∀ row ∈ rows, (assignRow h.schema row targets row :
      Except (ExecError H.StoreError) _) = .ok (f row) ∧
        (f row)[h.schema.primaryKey]? = row[h.schema.primaryKey]?)
    (hsorted : rows.Pairwise (before h.schema)) :
    ((∀ row ∈ rows, h.schema.IsRow (f row)) → ∃ t',
      (updateRows table h.schema targets rows : RowM (ExecError H.StoreError) _).exec s t =
        (.ok (), t') ∧
      (∀ row ∈ rows, ∀ k, Keyed h row k →
        ∃ bs, encodeRow h.schema (f row) = .ok bs ∧ C.view t' k = some bs) ∧
      ∀ k, (∀ row ∈ rows, ¬ Keyed h row k) → C.view t' k = C.view t k) ∧
    ((∃ row ∈ rows, ¬ h.schema.IsRow (f row)) → ∃ e,
      ((updateRows table h.schema targets rows : RowM (ExecError H.StoreError) _).exec s t).1 =
        .error e) := by
  induction rows generalizing t with
  | nil =>
    refine ⟨fun _ => ⟨t, rfl, by simp, fun _ _ => rfl⟩, fun hbad => ?_⟩
    obtain ⟨row, hrow, -⟩ := hbad
    cases hrow
  | cons row rows ih =>
    obtain ⟨hrow, hrest⟩ := List.forall_mem_cons.mp htyped
    obtain ⟨⟨hassigned, hpk⟩, hassigns⟩ := List.forall_mem_cons.mp hassign
    obtain ⟨hfirst, hsorted⟩ := List.pairwise_cons.mp hsorted
    obtain ⟨k, hk⟩ := exists_keyed hrow
    have hk' : Keyed h (f row) k := by rwa [Keyed, hpk]
    have hexec : ∀ bs, encodeRow h.schema (f row) = .ok bs →
        (updateRows table h.schema targets (row :: rows) :
          RowM (ExecError H.StoreError) _).exec s t =
            (updateRows table h.schema targets rows).exec s (H.put t k bs) := fun bs hbs => by
      rw [updateRows, RowM.exec_bind, RowM.exec_ofExcept, hassigned]
      simp only [Except.mapError_ok, RowM.exec_bind, RowM.exec_adapt, exec_write_keyed hh hk' hbs]
    have hfails : ∀ e, encodeRow h.schema (f row) = .error e →
        (updateRows table h.schema targets (row :: rows) :
          RowM (ExecError H.StoreError) _).exec s t = (.error (.db (.row e)), t) := fun e he => by
      rw [updateRows, RowM.exec_bind, RowM.exec_ofExcept, hassigned]
      simp only [Except.mapError_ok, RowM.exec_bind, RowM.exec_adapt, exec_write_error hh hk' he,
        Except.mapError_error]
    have hother : ∀ row' ∈ rows, ¬ Keyed h row' k := fun row' hrow' hkey =>
      List.lt_irrefl _ ((hk.before_iff hkey).mp (hfirst row' hrow'))
    constructor
    · intro hnew
      obtain ⟨hnewrow, hnewrest⟩ := List.forall_mem_cons.mp hnew
      obtain ⟨bs, hbs⟩ := encodeRow_isOk.mpr hnewrow
      obtain ⟨t', ht', hwritten, hsame⟩ := (@ih (H.put t k bs) hrest hassigns hsorted).1 hnewrest
      refine ⟨t', (hexec bs hbs).trans ht', List.forall_mem_cons.mpr ⟨fun k₁ hk₁ => ?_, hwritten⟩,
        fun k₁ hnone => ?_⟩
      · obtain rfl := hk₁.unique hk
        refine ⟨bs, hbs, ?_⟩
        rw [hsame k₁ hother, C.view_put, Function.update_self]
      · obtain ⟨hne, hnone⟩ := List.forall_mem_cons.mp hnone
        rw [hsame k₁ hnone, C.view_put, Function.update_of_ne]
        rintro rfl
        exact hne hk
    · rintro ⟨row', hrow', hbad⟩
      cases hbs : encodeRow h.schema (f row) with
      | error e => exact ⟨_, congrArg Prod.fst (hfails e hbs)⟩
      | ok bs =>
        rw [hexec bs hbs]
        rcases List.mem_cons.mp hrow' with rfl | hrow'
        · exact absurd (encodeRow_isOk.mp ⟨bs, hbs⟩) hbad
        · exact (@ih (H.put t k bs) hrest hassigns hsorted).2 ⟨row', hrow', hbad⟩

/-- **A DELETE's loop** deletes the keys of the rows. -/
theorem exec_deleteRows_eq (hh : lookupTable (C.committed s) table = .ok (some h))
    (htyped : ∀ row ∈ rows, h.schema.IsRow row) : ∃ t',
      (deleteRows table h.schema rows : RowM (ExecError H.StoreError) _).exec s t = (.ok (), t') ∧
      (∀ row ∈ rows, ∀ k, Keyed h row k → C.view t' k = none) ∧
      ∀ k, (∀ row ∈ rows, ¬ Keyed h row k) → C.view t' k = C.view t k := by
  induction rows generalizing t with
  | nil => exact ⟨t, rfl, by simp, fun _ _ => rfl⟩
  | cons row rows ih =>
    obtain ⟨hrow, hrest⟩ := List.forall_mem_cons.mp htyped
    obtain ⟨k, hk⟩ := exists_keyed hrow
    obtain ⟨t', ht', hgone, hsame⟩ := @ih (H.delete t k) hrest
    have hexec : (deleteRows table h.schema (row :: rows) :
        RowM (ExecError H.StoreError) _).exec s t =
          (deleteRows table h.schema rows).exec s (H.delete t k) := by
      obtain ⟨pk, hpk, hkey⟩ := hk
      rw [deleteRows, hpk]
      simp only [RowM.exec_bind, RowM.exec_adapt, exec_delete_of (tableAt_committed hh) hkey,
        Except.mapError_ok]
    refine ⟨t', hexec.trans ht', List.forall_mem_cons.mpr ⟨fun k₁ hk₁ => ?_, hgone⟩,
      fun k₁ hnone => ?_⟩
    · obtain rfl := hk₁.unique hk
      by_cases hex : ∃ row' ∈ rows, Keyed h row' k₁
      · obtain ⟨row', hrow', hkey⟩ := hex
        exact hgone row' hrow' k₁ hkey
      · rw [hsame k₁ fun row' hrow' hkey => hex ⟨row', hrow', hkey⟩, C.view_delete,
          Function.update_self]
    · obtain ⟨hne, hnone⟩ := List.forall_mem_cons.mp hnone
      rw [hsame k₁ hnone, C.view_delete, Function.update_of_ne]
      rintro rfl
      exact hne hk

/-- **INSERT of one row** adds the row that the reference adds, or fails as the reference does. -/
theorem exec_insertRow_eq (hh : lookupTable (C.committed s) table = .ok (some h))
    (hrep : Represents C t h rows) {listed : List String} {targets : List ℕ} {exprs : List Expr}
    (hnames : List.Forall₂ (NameAt h.schema) listed targets) (hnodup : targets.Nodup) :
    (∀ rows', insertOne h.schema listed rows exprs = some rows' → ∃ t',
      (insertRow table h.schema targets exprs : RowM (ExecError H.StoreError) _).exec s t =
        (.ok (), t') ∧ Represents C t' h rows' ∧ Frame C h t t') ∧
    (insertOne h.schema listed rows exprs = none → ∃ e,
      ((insertRow table h.schema targets exprs : RowM (ExecError H.StoreError) _).exec s t).1 =
        .error e) := by
  have hlength := hnames.length_eq
  constructor
  · intro rows' hone
    unfold insertOne at hone
    split at hone
    next hlen =>
      obtain ⟨constants, hconstants, hone⟩ := Option.bind_eq_some_iff.mp hone
      dsimp only at hone
      split at hone
      next hvalid =>
        cases hone
        obtain ⟨hrow, hnew⟩ := hvalid
        obtain ⟨k, hk⟩ := exists_keyed hrow
        obtain ⟨pk, hpk, hkey⟩ := hk
        obtain ⟨bs, hbs⟩ := encodeRow_isOk.mpr hrow
        have hfresh : C.view t k = none := by
          by_contra hlive
          obtain ⟨v, hv⟩ := Option.ne_none_iff_exists'.mp hlive
          obtain ⟨r, hr, hrk⟩ := hrep.only k v (Keyed.under ⟨pk, hpk, hkey⟩) hv
          exact hnew r hr ((hrk.eq_iff ⟨pk, hpk, hkey⟩).mp rfl)
        have hfill := (@fillRow_eq_ok H.StoreError _ _ _ exprs _ hnames hnodup
          (hlen.trans hlength)).mpr ⟨constants, hconstants, rfl⟩
        have hexec := exec_insertRow_of hh (hlen.trans hlength) hfill hpk hkey hfresh
        rw [hbs] at hexec
        refine ⟨_, hexec, hrep.insert hrow ⟨pk, hpk, hkey⟩ hbs hnew, fun k' hk' => ?_⟩
        rw [C.view_put, Function.update_of_ne]
        rintro rfl
        exact hk' (Keyed.under ⟨pk, hpk, hkey⟩)
      next => cases hone
    next => cases hone
  · intro hone
    rcases hexec : (insertRow table h.schema targets exprs :
      RowM (ExecError H.StoreError) _).exec s t with ⟨e | _, t'⟩
    · exact ⟨e, rfl⟩
    exfalso
    have hlen : exprs.length = targets.length := by
      unfold insertRow at hexec
      split at hexec
      · cases hexec
      next hlen => exact not_not.mp hlen
    obtain ⟨values, pk, k, bs, hvalues, hpk, hkey, hread, -⟩ :=
      exec_insertRow (tableAt_committed hh) hexec
    obtain ⟨constants, hconstants, rfl⟩ := (fillRow_eq_ok hnames hnodup hlen).mp hvalues
    rw [C.read_view] at hread
    rw [exec_insertRow_of hh hlen hvalues hpk hkey hread] at hexec
    have hrow : h.schema.IsRow (filled h.schema listed constants) := by
      rw [← encodeRow_isOk]
      split at hexec
      · cases hexec
      next bs hbs => exact ⟨bs, hbs⟩
    have hnew : ∀ r ∈ rows, r[h.schema.primaryKey]? ≠
        (filled h.schema listed constants)[h.schema.primaryKey]? := by
      intro r hr heq
      obtain ⟨k', hk'⟩ := exists_keyed (hrep.typed r hr)
      obtain rfl := (hk'.eq_iff ⟨pk, hpk, hkey⟩).mpr heq
      obtain ⟨v, hv, -⟩ := hrep.stored r hr k' hk'
      rw [hread] at hv
      cases hv
    rw [insertOne, if_pos (hlen.trans hlength.symm), hconstants, Option.bind_some] at hone
    dsimp only at hone
    rw [if_pos ⟨hrow, hnew⟩] at hone
    cases hone

theorem Frame.trans {t'' : H.Txn} (h₁ : Frame C h t t') (h₂ : Frame C h t' t'') : Frame C h t t'' :=
  fun k hk => (h₂ k hk).trans (h₁ k hk)

/-- **An INSERT's loop** adds the rows one after another, or fails. -/
theorem exec_insertRows_eq (hh : lookupTable (C.committed s) table = .ok (some h))
    {listed : List String} {targets : List ℕ} {exprs : List (List Expr)}
    (hnames : List.Forall₂ (NameAt h.schema) listed targets) (hnodup : targets.Nodup)
    (hrep : Represents C t h rows) :
    (∀ rows', exprs.foldlM (insertOne h.schema listed) rows = some rows' → ∃ t',
      (insertRows table h.schema targets exprs : RowM (ExecError H.StoreError) _).exec s t =
        (.ok (), t') ∧ Represents C t' h rows' ∧ Frame C h t t') ∧
    (exprs.foldlM (insertOne h.schema listed) rows = none → ∃ e,
      ((insertRows table h.schema targets exprs : RowM (ExecError H.StoreError) _).exec s t).1 =
        .error e) := by
  induction exprs generalizing t rows with
  | nil =>
    refine ⟨fun rows' hrows' => ?_, fun hnone => ?_⟩
    · cases hrows'
      exact ⟨t, rfl, hrep, fun _ _ => rfl⟩
    · cases hnone
  | cons first exprs ih =>
    obtain ⟨hok, herr⟩ := @exec_insertRow_eq H C s t h rows table hh hrep listed targets first
      hnames hnodup
    rw [List.foldlM_cons]
    cases hone : insertOne h.schema listed rows first with
    | none =>
      refine ⟨fun rows' hrows' => ?_, fun _ => ?_⟩
      · cases hrows'
      · obtain ⟨e, he⟩ := herr hone
        refine ⟨e, ?_⟩
        rcases hexec : (insertRow table h.schema targets first :
          RowM (ExecError H.StoreError) _).exec s t with ⟨r, t₁⟩
        rw [hexec] at he
        cases he
        rw [insertRows, RowM.exec_bind, hexec]
    | some rows₁ =>
      obtain ⟨t₁, hexec, hrep₁, hframe₁⟩ := hok rows₁ hone
      obtain ⟨hok, herr⟩ := ih hrep₁
      have hrest : (insertRows table h.schema targets (first :: exprs) :
          RowM (ExecError H.StoreError) _).exec s t =
            (insertRows table h.schema targets exprs).exec s t₁ := by
        rw [insertRows, RowM.exec_bind, hexec]
      rw [hrest]
      refine ⟨fun rows' hrows' => ?_, herr⟩
      obtain ⟨t', ht', hrep', hframe'⟩ := hok rows' hrows'
      exact ⟨t', ht', hrep', hframe₁.trans hframe'⟩

end Loops

/-! ## Running a statement -/

section Run

variable {u : Unicode} {table : String} {stmt : Statement} {filter : Option Expr}

theorem RowsTyped.isRow (hrows : RowsTyped C t h) : ∀ row ∈ tableRows H t h, h.schema.IsRow row :=
  hrows.represents.typed

/-- **The rows found** are those of the table on which the filter is TRUE. -/
theorem exec_matchingRows_holds (hh : lookupTable (C.committed s) table = .ok (some h))
    (hrows : RowsTyped C t h) (hvalid : ValidFilter h.schema filter)
    (htotal : Total h.schema (tableRows H t h) filter.toList) :
    (matchingRows table h.schema filter : RowM (ExecError H.StoreError) _).exec s t =
      (.ok ((tableRows H t h).filter (holds h.schema filter)), t) := by
  have hkeeps : ∀ row ∈ tableRows H t h,
      (keepsRow filter h.schema row : Except (ExecError H.StoreError) _) =
        .ok (holds h.schema filter row) := fun row hrow =>
    keepsRow_holds (hrows.isRow row hrow).typed hvalid fun e he r hr =>
      List.mem_singleton.mp hr ▸ htotal e he row hrow
  have hvalue : FilterTotal C t h filter := by
    rintro f rfl k v row hp hv hdecode
    have hrow : row ∈ tableRows H t h :=
      List.mem_map.mpr ⟨(k, v), C.mem_scan_view.mpr ⟨hp, hv⟩, rowOf_eq hdecode⟩
    obtain ⟨v, hv, -⟩ := Except.bind_eq_ok.mp (hkeeps row hrow)
    exact ⟨v, hv⟩
  rw [exec_matchingRows_eq hh hrows.rowsUnderKeys (checkFilter_eq_ok.mpr hvalid) hvalue]
  refine congrArg (fun rows => (Except.ok rows, t)) (List.filter_congr fun row hrow => ?_)
  rw [isKept, hkeeps row hrow]
  cases holds h.schema filter row <;> rfl

theorem exec_matchingRows_invalid (hinvalid : ¬ ValidFilter h.schema filter) :
    ∃ e, (matchingRows table h.schema filter : RowM (ExecError H.StoreError) _).exec s t =
      (.error e, t) := by
  cases hcheck : (checkFilter filter h.schema : Except (ExecError H.StoreError) _) with
  | ok _ => exact absurd (checkFilter_eq_ok.mp hcheck) hinvalid
  | error e => exact ⟨e, exec_matchingRows_error hcheck⟩

/-- The statement does what the reference does, up to what is stored being read back. -/
def FollowsReference (C : H.Contract) (s : H.Store) (t : H.Txn) (h : TableHandle) (stmt : Statement)
    (m : RowM (ExecError H.StoreError) QueryResult) : Prop :=
  (∀ q rows', Valid h.schema stmt → effect h.schema stmt (tableRows H t h) = some (q, rows') →
    ∃ t', m.exec s t = (.ok q, t') ∧ Represents C t' h rows' ∧ Frame C h t t') ∧
  ((Valid h.schema stmt → effect h.schema stmt (tableRows H t h) = none) →
    ∃ e, (m.exec s t).1 = .error e)

theorem follows_insert (hh : lookupTable (C.committed s) table = .ok (some h))
    (hrows : RowsTyped C t h) (columns : Option (List String)) (exprs : List (List Expr)) :
    FollowsReference C s t h (.insert table columns exprs) (insert table columns exprs) := by
  have hschema := @exec_schemaOf_committed H C s t table h hh
  have hvalid : Valid h.schema (.insert table columns exprs) ↔
      (columns.getD (names h.schema)).Nodup ∧
        ∀ name ∈ columns.getD (names h.schema), name ∈ names h.schema := by
    cases columns with
    | none =>
      exact ⟨fun _ => ⟨h.schema.nodup, fun _ hname => hname⟩, fun _ _ hnone => by cases hnone⟩
    | some listed => simp [Valid]
  rw [FollowsReference, hvalid]
  by_cases hnames : (columns.getD (names h.schema)).Nodup ∧
      ∀ name ∈ columns.getD (names h.schema), name ∈ names h.schema
  · obtain ⟨targets, htargets⟩ := exists_forall₂_nameAt hnames.2
    have hnodup := (nodup_of_forall₂_nameAt htargets).mp hnames.1
    have hinsert := (@insertTargets_eq_ok H.StoreError _ _ _).mpr ⟨hnodup, htargets⟩
    have hexec : (insert table columns exprs : RowM (ExecError H.StoreError) _).exec s t =
        ((insertRows table h.schema targets exprs >>= fun _ =>
          pure { QueryResult.default with rowsAffected := exprs.length } :
            RowM (ExecError H.StoreError) _).exec s t) := by
      rw [insert, RowM.exec_bind, hschema]
      dsimp only
      rw [RowM.exec_bind, RowM.exec_ofExcept, hinsert]
      rfl
    obtain ⟨hok, herr⟩ := @exec_insertRows_eq H C s t h _ table hh _ targets exprs htargets hnodup
      hrows.represents
    rw [hexec, RowM.exec_bind]
    constructor
    · intro q rows' _ heffect
      obtain ⟨rows'', hrows'', heq⟩ := Option.map_eq_some_iff.mp heffect
      cases heq
      obtain ⟨t', ht', hrep, hframe⟩ := hok _ hrows''
      exact ⟨t', by rw [ht']; rfl, hrep, hframe⟩
    · intro hnone
      obtain ⟨e, he⟩ := herr (Option.map_eq_none_iff.mp (hnone hnames))
      rcases hrun : (insertRows table h.schema targets exprs :
        RowM (ExecError H.StoreError) _).exec s t with ⟨r, t'⟩
      rw [hrun] at he
      cases he
      exact ⟨e, rfl⟩
  · refine ⟨fun _ _ hgood => absurd hgood hnames, fun _ => ?_⟩
    cases htargets : (insertTargets h.schema columns : Except (ExecError H.StoreError) _) with
    | ok targets =>
      obtain ⟨hnodup, hforall⟩ := insertTargets_eq_ok.mp htargets
      exact absurd
        ⟨(nodup_of_forall₂_nameAt hforall).mpr hnodup, mem_names_of_forall₂ hforall⟩ hnames
    | error e =>
      refine ⟨e, ?_⟩
      rw [insert, RowM.exec_bind, hschema]
      dsimp only
      rw [RowM.exec_bind, RowM.exec_ofExcept, htargets]
      rfl

theorem follows_delete (hh : lookupTable (C.committed s) table = .ok (some h))
    (hrows : RowsTyped C t h) (htotal : Total h.schema (tableRows H t h) filter.toList) :
    FollowsReference C s t h (.delete table filter) (delete table filter) := by
  have hschema := @exec_schemaOf_committed H C s t table h hh
  have hexec : (delete table filter : RowM (ExecError H.StoreError) _).exec s t =
      (matchingRows table h.schema filter >>= fun victims =>
        deleteRows table h.schema victims >>= fun _ =>
          pure { QueryResult.default with rowsAffected := victims.length } :
            RowM (ExecError H.StoreError) _).exec s t := by
    rw [delete, RowM.exec_bind, hschema]
  rw [FollowsReference, hexec, RowM.exec_bind]
  constructor
  · intro q rows' hvalid heffect
    cases heffect
    rw [exec_matchingRows_holds hh hrows hvalid htotal]
    have hfound : ∀ row, row ∈ (tableRows H t h).filter (holds h.schema filter) ↔
        row ∈ tableRows H t h ∧ holds h.schema filter row = true := fun row => List.mem_filter
    obtain ⟨t', ht', hgone, hsame⟩ := @exec_deleteRows_eq H C s t h _ table hh
      fun row hrow => hrows.isRow row ((hfound row).mp hrow).1
    refine ⟨t', by dsimp only; rw [RowM.exec_bind, ht']; rfl, hrows.represents.delete
      (fun row hrow hp => hgone row ((hfound row).mpr ⟨hrow, hp⟩))
      fun k hnone => hsame k fun row hrow => hnone row ((hfound row).mp hrow).1
        ((hfound row).mp hrow).2, fun k hk => hsame k fun row _ hkey => hk hkey.under⟩
  · intro hnone
    obtain ⟨e, he⟩ := @exec_matchingRows_invalid H s t h table filter fun hvalid => by
      cases hnone hvalid
    exact ⟨e, by rw [he]⟩

theorem follows_select (hh : lookupTable (C.committed s) table = .ok (some h))
    (hrows : RowsTyped C t h) (projection : Projection) (orderBy : Option OrderBy)
    (limit : Option UInt64) (htotal : Total h.schema (tableRows H t h) filter.toList) :
    FollowsReference C s t h (.select projection table filter orderBy limit)
      (select table projection filter orderBy limit) := by
  have hschema := @exec_schemaOf_committed H C s t table h hh
  rw [FollowsReference, select, RowM.exec_bind, hschema]
  dsimp only
  rw [RowM.exec_bind, RowM.exec_ofExcept]
  cases hpicked : (pickColumns h.schema projection : Except (ExecError H.StoreError) _) with
  | error e =>
    refine ⟨fun q rows' hvalid => ?_, fun _ => ⟨e, rfl⟩⟩
    obtain ⟨picked, hok⟩ := (@pickColumns_isOk H.StoreError _ _).mpr hvalid.1
    cases hpicked.symm.trans hok
  | ok picked =>
  dsimp only [Except.mapError_ok]
  rw [RowM.exec_bind, RowM.exec_ofExcept]
  cases horder : (orderColumn h.schema orderBy : Except (ExecError H.StoreError) _) with
  | error e =>
    refine ⟨fun q rows' hvalid => ?_, fun _ => ⟨e, rfl⟩⟩
    obtain ⟨order, hok⟩ := (@orderColumn_isOk H.StoreError _ _).mpr hvalid.2.1
    cases horder.symm.trans hok
  | ok order =>
  dsimp only [Except.mapError_ok]
  rw [RowM.exec_bind]
  have hnames := pickColumns_eq_ok.mp hpicked
  constructor
  · intro q rows' hvalid heffect
    cases heffect
    rw [exec_matchingRows_holds hh hrows hvalid.2.2 htotal]
    refine ⟨t, ?_, hrows.represents, fun _ _ => rfl⟩
    have hlen : ∀ row ∈ (tableRows H t h).filter (holds h.schema filter),
        row.length = h.schema.columns.length := fun row hrow =>
      (hrows.isRow row (List.mem_of_mem_filter hrow)).length
    dsimp only
    rw [RowM.exec_pure, sortRows_eq horder hlen, map_picked_name hnames, limitRows_eq]
    refine congrArg (fun shownRows => (Except.ok (QueryResult.mk _ shownRows 0), t))
      (List.map_congr_left fun row hrow => map_picked_cell hnames (hlen row ?_))
    have hsorted : row ∈ ordered h.schema orderBy
        ((tableRows H t h).filter (holds h.schema filter)) := by
      cases limit with
      | none => exact hrow
      | some n => exact List.mem_of_mem_take hrow
    cases orderBy with
    | none => exact hsorted
    | some o => exact List.mem_mergeSort.mp hsorted
  · intro hnone
    have hinvalid : ¬ ValidFilter h.schema filter := fun hvalid => by
      cases hnone
        ⟨pickColumns_isOk.mp ⟨picked, hpicked⟩, orderColumn_isOk.mp ⟨order, horder⟩, hvalid⟩
    obtain ⟨e, he⟩ := @exec_matchingRows_invalid H s t h table filter hinvalid
    exact ⟨e, by rw [he]⟩

theorem follows_update (hh : lookupTable (C.committed s) table = .ok (some h))
    (hrows : RowsTyped C t h) (assignments : List (String × Expr))
    (htotal : Total h.schema (tableRows H t h) (assignments.map (·.2) ++ filter.toList)) :
    FollowsReference C s t h (.update table assignments filter)
      (update u table assignments filter) := by
  have hschema := @exec_schemaOf_committed H C s t table h hh
  have hset : Total h.schema (tableRows H t h) (assignments.map (·.2)) := fun e he =>
    htotal e (List.mem_append_left _ he)
  have hwhere : Total h.schema (tableRows H t h) filter.toList := fun e he =>
    htotal e (List.mem_append_right _ he)
  rw [FollowsReference, update, RowM.exec_bind, hschema]
  dsimp only
  rw [RowM.exec_bind, RowM.exec_ofExcept]
  cases htargets :
    (updateTargets u h.schema assignments [] : Except (ExecError H.StoreError) _) with
  | error e =>
    refine ⟨fun q rows' hvalid => ?_, fun _ => ⟨e, rfl⟩⟩
    obtain ⟨targets, hok⟩ := (@updateTargets_isOk H.StoreError _ u _).mpr hvalid.1
    cases htargets.symm.trans hok
  | ok targets =>
  dsimp only [Except.mapError_ok]
  rw [RowM.exec_bind]
  have hassignable := updateTargets_isOk.mp ⟨targets, htargets⟩
  obtain ⟨added, hadded, hnodup, hassigns⟩ := (updateTargets_eq_ok (by simp)).mp htargets
  rw [List.nil_append] at hadded
  subst hadded
  by_cases hfilter : ValidFilter h.schema filter
  · rw [exec_matchingRows_holds hh hrows hfilter hwhere]
    dsimp only
    rw [RowM.exec_bind]
    have hfound : ∀ row, row ∈ (tableRows H t h).filter (holds h.schema filter) ↔
        row ∈ tableRows H t h ∧ holds h.schema filter row = true := fun row => List.mem_filter
    have hkey : ∀ row ∈ tableRows H t h, (assigned h.schema assignments row)[h.schema.primaryKey]? =
        row[h.schema.primaryKey]? := fun row hrow =>
      assigned_primaryKey (hrows.isRow row hrow).length fun a ha => by
        obtain ⟨c, -, hname, hne, -⟩ := hassignable.2 a ha
        exact hname ▸ hne
    obtain ⟨hok, herr⟩ := @exec_updateRows_eq H C s t h
      ((tableRows H t h).filter (holds h.schema filter)) table hh targets
      (assigned h.schema assignments) (fun row hrow => hrows.isRow row ((hfound row).mp hrow).1)
      (fun row hrow => by
        obtain ⟨hrow, -⟩ := (hfound row).mp hrow
        exact ⟨assignRow_assigned (hrows.isRow row hrow).typed hassigns hnodup fun e he r hr =>
          List.mem_singleton.mp hr ▸ hset e he row hrow, hkey row hrow⟩)
      (hrows.represents.sorted.filter _)
    constructor
    · intro q rows' _ heffect
      rw [effect] at heffect
      split at heffect
      next hall =>
        cases heffect
        have hnew : ∀ row ∈ tableRows H t h, holds h.schema filter row →
            h.schema.IsRow (assigned h.schema assignments row) := fun row hrow hp => by
          simpa [hp] using hall _ (List.mem_map_of_mem hrow)
        obtain ⟨t', ht', hwritten, hsame⟩ := hok fun row hrow =>
          hnew row ((hfound row).mp hrow).1 ((hfound row).mp hrow).2
        refine ⟨t', by rw [ht']; rfl, hrows.represents.update
          (fun row hrow hp => ⟨hnew row hrow hp, hkey row hrow⟩)
          (fun row hrow hp => hwritten row ((hfound row).mpr ⟨hrow, hp⟩))
          fun k hnone => hsame k fun row hrow => hnone row ((hfound row).mp hrow).1
            ((hfound row).mp hrow).2, fun k hk => hsame k fun row _ hkey => hk hkey.under⟩
      next => cases heffect
    · intro hnone
      have heffect := hnone ⟨hassignable, hfilter⟩
      rw [effect] at heffect
      split at heffect
      next => cases heffect
      next hall =>
        obtain ⟨row, hrow, hbad⟩ : ∃ row ∈ (tableRows H t h).filter (holds h.schema filter),
            ¬ h.schema.IsRow (assigned h.schema assignments row) := by
          by_contra hnone
          refine hall fun r hr => ?_
          obtain ⟨row, hrow, rfl⟩ := List.mem_map.mp hr
          split
          next hp => exact not_not.mp fun hbad => hnone ⟨row, (hfound row).mpr ⟨hrow, hp⟩, hbad⟩
          next => exact hrows.isRow row hrow
        obtain ⟨e, he⟩ := herr ⟨row, hrow, hbad⟩
        rcases hrun : (updateRows table h.schema targets ((tableRows H t h).filter
          (holds h.schema filter)) : RowM (ExecError H.StoreError) _).exec s t with ⟨r, t'⟩
        rw [hrun] at he
        cases he
        exact ⟨e, rfl⟩
  · refine ⟨fun q rows' hvalid => absurd hvalid.2 hfilter, fun _ => ?_⟩
    obtain ⟨e, he⟩ := @exec_matchingRows_invalid H s t h table filter hfilter
    exact ⟨e, by rw [he]⟩

/-- **Every statement on rows** follows the reference. -/
theorem follows_run (htable : stmt.table? = some table)
    (hh : lookupTable (C.committed s) table = .ok (some h)) (hrows : RowsTyped C t h)
    (htotal : Total h.schema (tableRows H t h) stmt.rowExprs) :
    FollowsReference C s t h stmt (run u stmt) := by
  cases stmt with
  | insert table' columns exprs =>
    cases htable
    exact follows_insert hh hrows columns exprs
  | select projection table' filter orderBy limit =>
    cases htable
    exact follows_select hh hrows projection orderBy limit htotal
  | update table' assignments filter =>
    cases htable
    exact follows_update hh hrows assignments htotal
  | delete table' filter =>
    cases htable
    exact follows_delete hh hrows htotal
  | createTable | begin | commit | rollback => cases htable

end Run

/-! ## Refinement -/

/-- The rows of every table are rows of its schema under their own keys, and no two tables share an
id, so that every row belongs to one table. -/
structure ViewTyped (C : H.Contract) (s : H.Store) (t : H.Txn) : Prop where
  rows : ∀ name th, lookupTable (C.committed s) name = .ok (some th) → RowsTyped C t th
  apart : ∀ name name' th th', lookupTable (C.committed s) name = .ok (some th) →
    lookupTable (C.committed s) name' = .ok (some th') → th.tableId = th'.tableId → name = name'

/-- Every transaction on a reachable store sees such rows. -/
theorem TxnOk.viewTyped {P : Promises} (hs : Sound C P s) (ht : TxnOk C P t s) (hv : P.values)
    (hfew : FewTables (C.committed s)) : ViewTyped C s t := by
  obtain ⟨ts, hts, -⟩ := hs.catalog
  have hlen := (hts.length_lt hfew).le
  refine ⟨fun name th hh k v hp hview => ?_,
    fun name name' th th' hh hh' hid => (hts.lookup_inj hlen hh hh' hid).1⟩
  have hkey := isRowKey_of_isPrefix hp
  obtain ⟨pk, row, hk, hrow, hpk, hisrow⟩ := (ht.rows hv k v hkey hview).decode hts hlen hh hp
  exact ⟨row, ⟨pk, hpk, hk⟩, hrow, hisrow⟩

/-- **The statement refines the reference**: run on the transaction, it succeeds just when the
reference does, returns what the reference returns, and leaves a view in which the table has the
rows that the reference makes and every other table the rows that it had. -/
def Refines (C : H.Contract) (u : Unicode) (s : H.Store) (t : H.Txn) (table : String)
    (h : TableHandle) (stmt : Statement) : Prop :=
  ∀ r t', (run u stmt : RowM (ExecError H.StoreError) _).exec s t = (r, t') →
    ((∃ q, r = .ok q) ↔ Valid h.schema stmt ∧
      ∃ q rows', effect h.schema stmt (tableRows H t h) = some (q, rows')) ∧
    ∀ q, r = .ok q →
      effect h.schema stmt (tableRows H t h) = some (q, tableRows H t' h) ∧ RowsTyped C t' h ∧
      ∀ name th, lookupTable (C.committed s) name = .ok (some th) → name ≠ table →
        tableRows H t' th = tableRows H t th

section Refinement

variable {u : Unicode} {table : String} {stmt : Statement}

/-- The rows that are read back fit their length fields. -/
theorem fits_of_tableRows : ∀ row ∈ tableRows H t h, Row.Fits row := by
  intro row hrow
  obtain ⟨e, -, rfl⟩ := List.mem_map.mp hrow
  rw [rowOf]
  cases hdecode : decodeRow h.schema e.2 with
  | ok row => exact (decodeRow_types hdecode).2
  | error err => exact List.forall_mem_nil _

/-- What is not read back is not what the reference makes. -/
theorem fits_of_refines (htable : stmt.table? = some table)
    (hh : lookupTable (C.committed s) table = .ok (some h)) (hrows : RowsTyped C t h)
    (htotal : Total h.schema (tableRows H t h) stmt.rowExprs)
    (hrefines : Refines C u s t table h stmt) {q : QueryResult} (hvalid : Valid h.schema stmt)
    (heffect : effect h.schema stmt (tableRows H t h) = some (q, rows)) :
    ∀ row ∈ rows, Row.Fits row := by
  obtain ⟨t', hexec, -⟩ := (follows_run htable hh hrows htotal).1 q rows hvalid heffect
  obtain ⟨hsame, -⟩ := (hrefines _ _ hexec).2 q rfl
  rw [heffect] at hsame
  cases hsame
  exact fits_of_tableRows

/-- **Statements refine the relational model** just as far as the rows that they make can be read
back: for every statement on rows whose WHERE and SET go wrong on no row of the table, on every view
of well-typed rows. -/
theorem run_refines_iff (htable : stmt.table? = some table)
    (hh : lookupTable (C.committed s) table = .ok (some h)) (hview : ViewTyped C s t)
    (htotal : Total h.schema (tableRows H t h) stmt.rowExprs) :
    Refines C u s t table h stmt ↔ ∀ q rows', Valid h.schema stmt →
      effect h.schema stmt (tableRows H t h) = some (q, rows') → ∀ row ∈ rows', Row.Fits row := by
  have hrows := hview.rows table h hh
  refine ⟨fun hrefines q rows' hvalid heffect =>
    fits_of_refines htable hh hrows htotal hrefines hvalid heffect, fun hfits r t' hexec => ?_⟩
  obtain ⟨hok, herr⟩ := @follows_run H C s t h u table stmt htable hh hrows htotal
  by_cases hgood : Valid h.schema stmt ∧
      ∃ q rows', effect h.schema stmt (tableRows H t h) = some (q, rows')
  · obtain ⟨hvalid, q, rows', heffect⟩ := id hgood
    obtain ⟨t'', hexec', hrep, hframe⟩ := hok q rows' hvalid heffect
    cases hexec.symm.trans hexec'
    have hfit := hfits q rows' hvalid heffect
    refine ⟨iff_of_true ⟨q, rfl⟩ hgood, fun q' hq => ?_⟩
    cases hq
    refine ⟨by rw [heffect, hrep.tableRows_eq hfit], hrep.rowsTyped hfit, fun name th hth hne => ?_⟩
    refine congrArg (List.map (rowOf th.schema))
      (C.scan_eq_of_view fun k hk => hframe k fun hk' => ?_)
    obtain ⟨rest, rfl⟩ := hk
    obtain ⟨rest', hrest⟩ := hk'
    obtain ⟨hid, -⟩ := rowKeyPrefix_append_inj.mp hrest
    exact hne (hview.apart name table th h hth hh hid.symm)
  · obtain ⟨e, he⟩ := herr fun hvalid => by
      by_contra hsome
      obtain ⟨⟨q, rows'⟩, heffect⟩ := Option.ne_none_iff_exists'.mp hsome
      exact hgood ⟨hvalid, q, rows', heffect⟩
    rw [hexec] at he
    cases he
    refine ⟨iff_of_false (fun hex => ?_) hgood, fun q hq => ?_⟩
    · obtain ⟨q, hq⟩ := hex
      cases hq
    · cases hq

end Refinement

/-! ## On the sample store -/

theorem viewTyped_sample : ViewTyped (Reference.contract true) sampleStore sampleTxn := by
  have hempty : Sound (Reference.contract true) valuesFit ([] : List Reference.WriteList) :=
    .of_nil _ _ rfl
  have hreach : Reachable (fun (c : Call) _ => c.FitsValues .ascii)
      (start ([] : List Reference.WriteList) newSessions)
      (sampleRun [(0, .executeStatement createSample), (1, .executeStatement (insertSample 7)),
        (1, .executeStatement (insertSample 8))]) := by
    refine reachable_sampleRun ?_
    simp [Call.FitsValues, Call.statement, createSample, insertSample, Statement.Fits, Expr.Fits,
      Literal.Fits, literalValue, Value.Fits]
    exact fun _ => by decide
  have hsound : Sound (Reference.contract true) valuesFit sampleStore :=
    (good_of_reachable (fun c _ hc => ⟨fun _ => hc, False.elim⟩) hempty idle_newSessions
      hreach).shared.sound hempty
  exact (TxnOk.begin hsound).viewTyped hsound trivial (Reference.fewTables (by decide +kernel))

theorem lookup_sample : lookupTable ((Reference.contract true).committed sampleStore) "a" =
    .ok (some sampleTable) := by decide +kernel

theorem tableRows_sample : tableRows (Reference.host true) sampleTxn sampleTable =
    [[.integer 7, .text "x"], [.integer 8, .text "x"]] := by decide +kernel

theorem total_insert {rows : List Row} {columns : Option (List String)} {exprs : List (List Expr)} :
    Total sampleTable.schema rows (Statement.insert "a" columns exprs).rowExprs := fun e he => by
  cases he

theorem run_refines_iff_sample :
    Refines (Reference.contract true) .ascii sampleStore sampleTxn "a" sampleTable
      (insertSample 9) := by
  have hall : (effect sampleTable.schema (insertSample 9)
      (tableRows (Reference.host true) sampleTxn sampleTable)).all (fun p =>
        p.2.all fun row => row.all fun v => decide v.Fits) = true := by
    rw [tableRows_sample]
    decide +kernel
  have hiff := @run_refines_iff (Reference.host true) (Reference.contract true) sampleStore sampleTxn
    sampleTable .ascii "a" (insertSample 9) rfl lookup_sample viewTyped_sample total_insert
  refine hiff.mpr fun q rows' _ heffect row hrow v hv => ?_
  rw [heffect, Option.all_some] at hall
  exact of_decide_eq_true (List.all_eq_true.mp (List.all_eq_true.mp hall row hrow) v hv)

/-- A text of 2^32 bytes. -/
def hugeText : String := .ofList (List.replicate (2 ^ 32) 'a')

/-- INSERT INTO a VALUES (9, s). -/
def insertText (s : String) : Statement :=
  .insert "a" none [[.literal (.integer 9), .literal (.text s)]]

theorem not_run_refines :
    lookupTable ((Reference.contract true).committed sampleStore) "a" = .ok (some sampleTable) ∧
      ViewTyped (Reference.contract true) sampleStore sampleTxn ∧
      Total sampleTable.schema (tableRows (Reference.host true) sampleTxn sampleTable)
        (insertText hugeText).rowExprs ∧
      ¬ Refines (Reference.contract true) .ascii sampleStore sampleTxn "a" sampleTable
        (insertText hugeText) := by
  refine ⟨lookup_sample, viewTyped_sample, total_insert, fun hrefines => ?_⟩
  have hrow : ∀ s, sampleTable.schema.IsRow [.integer 9, .text s] := fun s =>
    .cons (.inl rfl) (.cons (.inl rfl) .nil)
  have hone : ∀ s, insertOne sampleTable.schema (names sampleTable.schema)
      [[.integer 7, .text "x"], [.integer 8, .text "x"]]
      [.literal (.integer 9), .literal (.text s)] =
        some ([[.integer 7, .text "x"], [.integer 8, .text "x"]].orderedInsert
          (before sampleTable.schema) [.integer 9, .text s]) := by
    intro s
    have hnew : ∀ r ∈ ([[.integer 7, .text "x"], [.integer 8, .text "x"]] : List Row),
        r[sampleTable.schema.primaryKey]? ≠
          ([.integer 9, .text s] : Row)[sampleTable.schema.primaryKey]? := by
      simp [sampleTable]
    have hlen : [Expr.literal (.integer 9), .literal (.text s)].length =
        (names sampleTable.schema).length := rfl
    have hconstants : [Expr.literal (.integer 9), .literal (.text s)].mapM constant =
        some [.integer 9, .text s] := rfl
    have hfilled : filled sampleTable.schema (names sampleTable.schema) [.integer 9, .text s] =
        [.integer 9, .text s] := rfl
    rw [insertOne, if_pos hlen, hconstants, Option.bind_some]
    dsimp only
    rw [hfilled]
    exact if_pos ⟨hrow s, hnew⟩
  have heffect : ∀ s, effect sampleTable.schema (insertText s)
      (tableRows (Reference.host true) sampleTxn sampleTable) =
        some (⟨[], [], 1⟩,
          [[.integer 7, .text "x"], [.integer 8, .text "x"]].orderedInsert
            (before sampleTable.schema) [.integer 9, .text s]) := by
    intro s
    rw [tableRows_sample, insertText, effect, Option.getD_none, List.foldlM_cons, hone s]
    rfl
  have hfits := fits_of_refines rfl lookup_sample (viewTyped_sample.rows _ _ lookup_sample)
    total_insert hrefines (fun listed hlisted => by cases hlisted) (heffect hugeText)
    _ ((List.mem_orderedInsert _).mpr (.inl rfl)) (.text hugeText) (by simp)
  have hlen : (utf8 hugeText).length = 2 ^ 32 := length_utf8_replicate (2 ^ 32)
  rw [Value.Fits, hlen] at hfits
  exact lt_irrefl _ hfits

end Choam
