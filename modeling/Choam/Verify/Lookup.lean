import Choam.Engine.Run
import Choam.Lib.Except

/-!
# Table lookups, and what a statement does to the store

Every operation on rows looks its table up in the committed catalog first, and touches nothing
else outside its transaction. `tableAt` is what the lookup finds; the `exec` lemmas give each
operation on rows as a function of it; `RowM.OnTable` is the shape that all of them share, which
is why a statement behaves as if it ran in one moment (`Verify.Atomic`).
-/

namespace Choam

open ByteString Overlay

variable {E : Type} {H : Host}

/-- The table of that name, in committed contents. -/
def lookupTable (c : Contents Bytes Bytes) (name : String) :
    Except CatalogCodecError (Option TableHandle) :=
  match catalogTableKey name with
  | none => .ok none
  | some key =>
    match c key with
    | none => .ok none
    | some bytes => (decodeTableEntry bytes).map fun e => some ⟨e.1, e.2⟩

/-- The table of that name, which is expected to exist. -/
def tableAt (c : Contents Bytes Bytes) (name : String) : Except (DbError E) TableHandle :=
  match lookupTable c name with
  | .error e => .error (.catalog (.codec e))
  | .ok none => .error (.unknownTable name)
  | .ok (some h) => .ok h

theorem lookupTable_congr {c c' : Contents Bytes Bytes} {name : String}
    (h : ∀ k, catalogTableKey name = some k → c k = c' k) :
    lookupTable c name = lookupTable c' name := by
  unfold lookupTable
  cases hk : catalogTableKey name with
  | none => rfl
  | some k => simp only [h k hk]

theorem tableAt_congr {c c' : Contents Bytes Bytes} {name : String}
    (h : ∀ k, catalogTableKey name = some k → c k = c' k) :
    (tableAt c name : Except (DbError E) TableHandle) = tableAt c' name := by
  rw [tableAt, tableAt, lookupTable_congr h]

theorem tableAt_eq_ok {c : Contents Bytes Bytes} {name : String} {h : TableHandle} :
    (tableAt c name : Except (DbError E) TableHandle) = .ok h ↔
      lookupTable c name = .ok (some h) := by
  unfold tableAt
  split
  next e he => simp [he]
  next he => simp [he]
  next h' he => simp [he]

/-- The lookup of a table that exists, as the program makes it. -/
theorem tableAt_committed {C : H.Contract} {s : H.Store} {name : String} {h : TableHandle}
    (hh : lookupTable (C.committed s) name = .ok (some h)) :
    (tableAt (H.get s) name : Except (DbError E) TableHandle) = .ok h := by
  rw [tableAt_eq_ok, ← hh]
  exact lookupTable_congr fun k _ => C.get_committed s k

/-- A table is found when its entry is there and decodes. -/
theorem lookupTable_eq_some {c : Contents Bytes Bytes} {name : String} {h : TableHandle} :
    lookupTable c name = .ok (some h) ↔ ∃ k bytes, catalogTableKey name = some k ∧
      c k = some bytes ∧ decodeTableEntry bytes = .ok (h.tableId, h.schema) := by
  unfold lookupTable
  cases hk : catalogTableKey name with
  | none => simp
  | some k =>
    cases hc : c k with
    | none => simp [hc]
    | some bytes =>
      cases hd : decodeTableEntry bytes with
      | error e => simp [hc, hd, Except.map]
      | ok e =>
        obtain ⟨id, schema⟩ := e
        cases h
        simp [hc, hd, Except.map]

/-! ## Running alone -/

section Exec

variable (s : H.Store) (t : H.Txn)

theorem exec_getTable (name : String) :
    RowM.exec s (Database.getTable name : RowM (DbError E) _) t =
      ((lookupTable (H.get s) name).mapError fun e => .catalog (.codec e), t) := by
  unfold Database.getTable
  rw [RowM.exec_adapt]
  unfold Catalog.getTable lookupTable
  cases hk : catalogTableKey name with
  | none => rfl
  | some k =>
    have hget : RowM.exec (ε := CatalogError E) s (ExceptT.lift (StoreGet.get k)) t =
        (.ok (H.get s k), t) := rfl
    simp only [RowM.exec_bind, hget]
    cases hc : H.get s k with
    | none => rfl
    | some bytes =>
      cases hd : decodeTableEntry bytes <;> simp [hd, Except.mapError, Except.map]

@[simp] theorem exec_tableHandle (name : String) :
    RowM.exec s (Database.tableHandle name : RowM (DbError E) _) t =
      (tableAt (H.get s) name, t) := by
  unfold Database.tableHandle tableAt
  rw [RowM.exec_bind, exec_getTable]
  rcases lookupTable (H.get s) name with e | _ | h <;> rfl

@[simp] theorem exec_schemaOf (table : String) :
    RowM.exec s (schemaOf table : RowM (ExecError E) _) t =
      ((tableAt (H.get s) table).mapError .db |>.map (·.schema), t) := by
  unfold schemaOf tableAt
  rw [RowM.exec_bind, RowM.exec_adapt, exec_getTable]
  rcases lookupTable (H.get s) table with e | _ | h <;> rfl

variable {s t}

theorem exec_read_of {table : String} {h : TableHandle} (pk : Value)
    (hh : (tableAt (H.get s) table : Except (DbError E) _) = .ok h) :
    RowM.exec s (RelTransaction.read table pk : RowM (DbError E) _) t =
      (match rowKey h.tableId pk h.schema.primaryKeyType with
        | .error e => .error (.value e)
        | .ok k =>
          match H.read t k with
          | none => .ok none
          | some bytes => (decodeRow h.schema bytes).mapError .row |>.map some, t) := by
  unfold RelTransaction.read
  simp only [RowM.exec_bind, exec_tableHandle, hh, RowM.exec_ofExcept]
  cases rowKey h.tableId pk h.schema.primaryKeyType with
  | error e => rfl
  | ok k =>
    simp only [Except.mapError, RowM.exec_read]
    cases H.read t k with
    | none => rfl
    | some bytes =>
      simp only [RowM.exec_bind, RowM.exec_ofExcept]
      cases decodeRow h.schema bytes <;> rfl

theorem exec_scan_of {table : String} {h : TableHandle}
    (hh : (tableAt (H.get s) table : Except (DbError E) _) = .ok h) :
    RowM.exec s (RelTransaction.scan table : RowM (DbError E) _) t =
      ((RelTransaction.decodeRows h.schema (H.scan t (rowKeyPrefix h.tableId))).mapError .row, t) := by
  unfold RelTransaction.scan
  simp only [RowM.exec_bind, exec_tableHandle, hh, RowM.exec_ofExcept, RowM.exec_scan]

theorem exec_write_eq {table : String} {h : TableHandle} (values : Row)
    (hh : (tableAt (H.get s) table : Except (DbError E) _) = .ok h) :
    RowM.exec s (RelTransaction.write table values : RowM (DbError E) _) t =
      match values[h.schema.primaryKey]? with
      | none => (.error (.row (.columnCountMismatch h.schema.columns.length values.length)), t)
      | some pk =>
        match rowKey h.tableId pk h.schema.primaryKeyType with
        | .error e => (.error (.value e), t)
        | .ok k =>
          match encodeRow h.schema values with
          | .error e => (.error (.row e), t)
          | .ok bs => (.ok (), H.put t k bs) := by
  unfold RelTransaction.write
  simp only [RowM.exec_bind, exec_tableHandle, hh]
  cases values[h.schema.primaryKey]? with
  | none => rfl
  | some pk =>
    simp only [RowM.exec_bind, RowM.exec_ofExcept]
    cases rowKey h.tableId pk h.schema.primaryKeyType with
    | error e => rfl
    | ok k => cases encodeRow h.schema values <;> rfl

theorem exec_delete_of {table : String} {h : TableHandle} {pk : Value} {k : Bytes}
    (hh : (tableAt (H.get s) table : Except (DbError E) _) = .ok h)
    (hk : rowKey h.tableId pk h.schema.primaryKeyType = .ok k) :
    RowM.exec s (RelTransaction.delete table pk : RowM (DbError E) _) t =
      (.ok (), H.delete t k) := by
  unfold RelTransaction.delete
  simp [RowM.exec_bind, hh, hk, Except.mapError]

end Exec

end Choam
