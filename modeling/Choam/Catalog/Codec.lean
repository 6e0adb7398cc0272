import Choam.Lib.Except
import Choam.Row.Row

/-!
# Catalog entries

How a table's entry (its id and schema) and the index of table names are stored. Lengths and
counts of an entry are kept in 16 bits and narrowed without a check, so an entry decodes to what
was encoded when the schema fits those fields (`decodeTableEntry_encode`); the id comes first and
survives in any case (`decodeTableEntry_id`).
-/

namespace Choam

open ByteString

inductive CatalogCodecError where
  | truncated
  | invalidUtf8
  | unknownTypeTag (tag : UInt8)
  | schema (e : SchemaError)
  deriving DecidableEq

def typeTag : ColumnType → UInt8
  | .integer => 0
  | .text => 1
  | .bytes => 2
  | .boolean => 3

def typeFromTag (tag : UInt8) : Except CatalogCodecError ColumnType :=
  if tag = 0 then .ok .integer
  else if tag = 1 then .ok .text
  else if tag = 2 then .ok .bytes
  else if tag = 3 then .ok .boolean
  else .error (.unknownTypeTag tag)

/-- A string with its length in 16 bits. -/
def writeString (s : String) : Bytes := le 2 (utf8 s).length ++ utf8 s

def readString (data : Bytes) : Except CatalogCodecError (String × Bytes) :=
  if data.length < 2 then
    .error .truncated
  else
    let len := ofLe (data.take 2)
    if data.length < 2 + len then
      .error .truncated
    else
      match fromUtf8 ((data.drop 2).take len) with
      | none => .error .invalidUtf8
      | some s => .ok (s, data.drop (2 + len))

def writeColumn (col : ColumnDef) : Bytes :=
  writeString col.name ++ [typeTag col.ty, if col.nullable then 1 else 0]

def encodeTableEntry (tableId : UInt32) (schema : Schema) : Bytes :=
  le 4 tableId.toNat ++ writeString schema.tableName ++ le 2 schema.columns.length ++
    le 2 schema.primaryKey ++ schema.columns.flatMap writeColumn

/-- Reads `n` columns; what follows them is not looked at. -/
def readColumns : Nat → Bytes → Except CatalogCodecError (List ColumnDef)
  | 0, _ => .ok []
  | n + 1, rest => do
    let (name, afterName) ← readString rest
    match afterName with
    | tag :: nullable :: rest =>
      let ty ← typeFromTag tag
      let columns ← readColumns n rest
      .ok (⟨name, ty, nullable != 0⟩ :: columns)
    | _ => .error .truncated

def decodeTableEntry (data : Bytes) : Except CatalogCodecError (UInt32 × Schema) :=
  if data.length < 4 then
    .error .truncated
  else do
    let tableId := UInt32.ofNat (ofLe (data.take 4))
    let (tableName, rest) ← readString (data.drop 4)
    if rest.length < 4 then
      .error .truncated
    else
      let ncols := ofLe (rest.take 2)
      let primaryKey := ofLe ((rest.drop 2).take 2)
      let columns ← readColumns ncols (rest.drop 4)
      match Schema.new tableName columns primaryKey with
      | .error e => .error (.schema e)
      | .ok schema => .ok (tableId, schema)

/-- The list of table names, with its length in front. -/
def encodeTableIndex (names : List String) : Bytes :=
  le 4 names.length ++ names.flatMap writeString

def readNames : Nat → Bytes → Except CatalogCodecError (List String)
  | 0, _ => .ok []
  | n + 1, rest => do
    let (name, after) ← readString rest
    let names ← readNames n after
    .ok (name :: names)

def decodeTableIndex (data : Bytes) : Except CatalogCodecError (List String) :=
  if data.length < 4 then
    .error .truncated
  else
    readNames (ofLe (data.take 4)) (data.drop 4)

/-! ## What decodes -/

theorem decodeTableIndex_eq_ok {data : Bytes} {names : List String} :
    decodeTableIndex data = .ok names ↔ ¬ data.length < 4 ∧
      readNames (ofLe (data.take 4)) (data.drop 4) = .ok names := by
  unfold decodeTableIndex
  split
  next h => simp [h]
  next h => rw [and_iff_right h]

theorem decodeTableEntry_eq_ok {data : Bytes} {p : UInt32 × Schema} :
    decodeTableEntry data = .ok p ↔ ¬ data.length < 4 ∧ ∃ name rest columns,
      readString (data.drop 4) = .ok (name, rest) ∧ ¬ rest.length < 4 ∧
      readColumns (ofLe (rest.take 2)) (rest.drop 4) = .ok columns ∧
      Schema.new name columns (ofLe ((rest.drop 2).take 2)) = .ok p.2 ∧
      p.1 = UInt32.ofNat (ofLe (data.take 4)) := by
  unfold decodeTableEntry
  constructor
  · intro h
    split at h
    · cases h
    next h4 =>
    obtain ⟨⟨name, rest⟩, hname, h⟩ := Except.bind_eq_ok.mp h
    dsimp only at h
    split at h
    · cases h
    next hrest =>
    obtain ⟨columns, hcolumns, h⟩ := Except.bind_eq_ok.mp h
    split at h
    · cases h
    next schema hschema =>
      cases h
      exact ⟨h4, name, rest, columns, hname, hrest, hcolumns, hschema, rfl⟩
  · rintro ⟨h4, name, rest, columns, hname, hrest, hcolumns, hschema, hid⟩
    rw [if_neg h4]
    refine Except.bind_eq_ok.mpr ⟨_, hname, ?_⟩
    dsimp only
    rw [if_neg hrest]
    refine Except.bind_eq_ok.mpr ⟨_, hcolumns, ?_⟩
    rw [hschema, ← hid]

/-! ## Round trips -/

/-- The name fits its 16-bit length field. -/
def FitsName (name : String) : Prop := (utf8 name).length ≤ 65535

instance : DecidablePred FitsName := fun name =>
  inferInstanceAs (Decidable ((utf8 name).length ≤ 65535))

/-- The schema fits the 16-bit fields of a catalog entry. -/
structure Schema.FitsEntry (s : Schema) : Prop where
  tableName : FitsName s.tableName
  columnName : ∀ c ∈ s.columns, FitsName c.name
  columns : s.columns.length ≤ 65535

@[simp] theorem typeFromTag_typeTag (ty : ColumnType) : typeFromTag (typeTag ty) = .ok ty := by
  cases ty <;> rfl

theorem readString_writeString {s : String} (h : FitsName s) (rest : Bytes) :
    readString (writeString s ++ rest) = .ok (s, rest) := by
  have hlt : (utf8 s).length < 256 ^ 2 := by unfold FitsName at h; omega
  have hlen : ofLe ((writeString s ++ rest).take 2) = (utf8 s).length := by
    rw [writeString, List.append_assoc, List.take_left' (length_le _ _), ofLe_le_of_lt hlt]
  have hdrop : (writeString s ++ rest).drop 2 = utf8 s ++ rest := by
    rw [writeString, List.append_assoc, List.drop_left' (length_le _ _)]
  have hall : (writeString s ++ rest).length = 2 + (utf8 s).length + rest.length := by
    simp [writeString]
    omega
  unfold readString
  simp only [hlen, hall, hdrop, ← List.drop_drop]
  rw [if_neg (by omega), if_neg (by omega), List.take_left, List.drop_left]
  simp

theorem readColumns_writeColumn {cols : List ColumnDef} (h : ∀ c ∈ cols, FitsName c.name)
    (rest : Bytes) : readColumns cols.length (cols.flatMap writeColumn ++ rest) = .ok cols := by
  induction cols with
  | nil => rfl
  | cons c cols ih =>
    have hname := readString_writeString (h c (by simp))
      (typeTag c.ty :: (if c.nullable then 1 else 0) :: (cols.flatMap writeColumn ++ rest))
    have hcols := ih fun c hc => h c (by simp [hc])
    have hnull : ((if c.nullable then 1 else 0 : UInt8) != 0) = c.nullable := by
      cases c.nullable <;> rfl
    simp only [List.length_cons, List.flatMap_cons, writeColumn, List.append_assoc, readColumns,
      hname, bind, Except.bind, List.cons_append, List.nil_append, typeFromTag_typeTag, hcols, hnull]

/-- An entry whose schema fits decodes to the id and schema it was made of. -/
theorem decodeTableEntry_encode (id : UInt32) {s : Schema} (h : s.FitsEntry) :
    decodeTableEntry (encodeTableEntry id s) = .ok (id, s) := by
  have hid : id.toNat < 256 ^ 4 := id.toNat_lt
  have hcount : s.columns.length < 256 ^ 2 := by have := h.columns; omega
  have hpk : s.primaryKey < 256 ^ 2 := lt_trans s.primaryKey_lt hcount
  set cols := s.columns.flatMap writeColumn with hcols
  have hentry : encodeTableEntry id s = le 4 id.toNat ++ (writeString s.tableName ++
      (le 2 s.columns.length ++ (le 2 s.primaryKey ++ cols))) := by
    simp [encodeTableEntry, hcols]
  have hlen : ¬ (encodeTableEntry id s).length < 4 := by simp [hentry]
  have htake : ofLe ((encodeTableEntry id s).take 4) = id.toNat := by
    rw [hentry, List.take_left' (length_le _ _), ofLe_le_of_lt hid]
  have hdrop : (encodeTableEntry id s).drop 4 = writeString s.tableName ++
      (le 2 s.columns.length ++ (le 2 s.primaryKey ++ cols)) := by
    rw [hentry, List.drop_left' (length_le _ _)]
  have hrest : ¬ (le 2 s.columns.length ++ (le 2 s.primaryKey ++ cols)).length < 4 := by
    simp
    omega
  have hncols : ofLe ((le 2 s.columns.length ++ (le 2 s.primaryKey ++ cols)).take 2) =
      s.columns.length := by
    rw [List.take_left' (length_le _ _), ofLe_le_of_lt hcount]
  have hdrop2 : (le 2 s.columns.length ++ (le 2 s.primaryKey ++ cols)).drop 2 =
      le 2 s.primaryKey ++ cols := List.drop_left' (length_le _ _)
  have hkey : ofLe ((le 2 s.primaryKey ++ cols).take 2) = s.primaryKey := by
    rw [List.take_left' (length_le _ _), ofLe_le_of_lt hpk]
  have hdrop4 : (le 2 s.columns.length ++ (le 2 s.primaryKey ++ cols)).drop 4 = cols := by
    rw [← List.append_assoc, List.drop_left' (by simp)]
  have hread := readColumns_writeColumn h.columnName []
  rw [List.append_nil, ← hcols] at hread
  unfold decodeTableEntry
  rw [if_neg hlen]
  simp only [htake, hdrop, readString_writeString h.tableName, bind, Except.bind, if_neg hrest,
    hncols, hdrop2, hkey, hdrop4, hread, s.new_self, UInt32.ofNat_toNat]

/-- Whatever becomes of the schema, an entry decodes to the id it was made with. -/
theorem decodeTableEntry_id {id id' : UInt32} {s s' : Schema}
    (h : decodeTableEntry (encodeTableEntry id s) = .ok (id', s')) : id' = id := by
  have hid : id.toNat < 256 ^ 4 := id.toNat_lt
  have htake : ofLe ((encodeTableEntry id s).take 4) = id.toNat := by
    simp only [encodeTableEntry, List.append_assoc]
    rw [List.take_left' (length_le _ _), ofLe_le_of_lt hid]
  obtain ⟨-, name, rest, columns, -, -, -, -, h⟩ := decodeTableEntry_eq_ok.mp h
  rwa [htake, UInt32.ofNat_toNat] at h

theorem readNames_writeString {names : List String} (h : ∀ n ∈ names, FitsName n) (rest : Bytes) :
    readNames names.length (names.flatMap writeString ++ rest) = .ok names := by
  induction names with
  | nil => rfl
  | cons n names ih =>
    have hname := readString_writeString (h n (by simp)) (names.flatMap writeString ++ rest)
    have hnames := ih fun n hn => h n (by simp [hn])
    simp only [List.length_cons, List.flatMap_cons, List.append_assoc, readNames, hname, bind,
      Except.bind, hnames]

theorem decodeTableIndex_encode {names : List String} (h : ∀ n ∈ names, FitsName n)
    (hlen : names.length < 2 ^ 32) : decodeTableIndex (encodeTableIndex names) = .ok names := by
  have hread := readNames_writeString h []
  rw [List.append_nil] at hread
  have hlt : names.length < 256 ^ 4 := hlen
  unfold decodeTableIndex encodeTableIndex
  rw [if_neg (by simp), List.take_left' (length_le _ _), List.drop_left' (length_le _ _),
    ofLe_le_of_lt hlt, hread]

/-! ## What the fields can hold -/

theorem ofLe_take_lt (n : Nat) (data : Bytes) : ofLe (data.take n) < 256 ^ n :=
  (ofLe_lt _).trans_le (Nat.pow_le_pow_right (by decide) (by simp))

/-- Whatever is read as a name has had room in a 16-bit length field. -/
theorem readString_fits {data rest : Bytes} {s : String} (h : readString data = .ok (s, rest)) :
    FitsName s := by
  unfold readString at h
  split at h
  · cases h
  dsimp only at h
  split at h
  · cases h
  split at h
  · cases h
  next s' hs =>
  cases h
  have hlt := ofLe_take_lt 2 data
  have hcut := List.length_take_le (ofLe (data.take 2)) (data.drop 2)
  rw [FitsName, utf8_of_fromUtf8 hs]
  omega

theorem readColumns_fits {n : Nat} {data : Bytes} {columns : List ColumnDef}
    (h : readColumns n data = .ok columns) :
    columns.length = n ∧ ∀ c ∈ columns, FitsName c.name := by
  induction n generalizing data columns with
  | zero =>
    cases h
    simp
  | succ n ih =>
    obtain ⟨⟨name, afterName⟩, hname, h⟩ := Except.bind_eq_ok.mp h
    match afterName, h with
    | tag :: nullable :: rest, h =>
      obtain ⟨ty, -, h⟩ := Except.bind_eq_ok.mp h
      obtain ⟨columns', hcolumns, h⟩ := Except.bind_eq_ok.mp h
      cases h
      obtain ⟨hlen, hfits⟩ := ih hcolumns
      exact ⟨by simp [hlen], List.forall_mem_cons.mpr ⟨readString_fits hname, hfits⟩⟩

theorem readNames_fits {n : Nat} {data : Bytes} {names : List String}
    (h : readNames n data = .ok names) : names.length = n ∧ ∀ name ∈ names, FitsName name := by
  induction n generalizing data names with
  | zero =>
    cases h
    simp
  | succ n ih =>
    obtain ⟨⟨name, after⟩, hname, h⟩ := Except.bind_eq_ok.mp h
    obtain ⟨names', hnames, h⟩ := Except.bind_eq_ok.mp h
    cases h
    obtain ⟨hlen, hfits⟩ := ih hnames
    exact ⟨by simp [hlen], List.forall_mem_cons.mpr ⟨readString_fits hname, hfits⟩⟩

/-- A schema that was read back fits a catalog entry. -/
theorem decodeTableEntry_fits {data : Bytes} {id : UInt32} {schema : Schema}
    (h : decodeTableEntry data = .ok (id, schema)) : schema.FitsEntry := by
  obtain ⟨-, name, rest, columns, hname, -, hcolumns, hschema, -⟩ := decodeTableEntry_eq_ok.mp h
  dsimp only at hschema
  obtain ⟨rfl, rfl, -⟩ := Schema.new_ok hschema
  obtain ⟨hlen, hfits⟩ := readColumns_fits hcolumns
  have hlt := ofLe_take_lt 2 rest
  exact ⟨readString_fits hname, hfits, by omega⟩

theorem decodeTableIndex_fits {data : Bytes} {names : List String}
    (h : decodeTableIndex data = .ok names) :
    (∀ name ∈ names, FitsName name) ∧ names.length < 2 ^ 32 := by
  obtain ⟨-, h⟩ := decodeTableIndex_eq_ok.mp h
  obtain ⟨hlen, hfits⟩ := readNames_fits h
  have hlt := ofLe_take_lt 4 data
  exact ⟨hfits, by omega⟩

/-- **What the catalog's fields can hold**, and no more, is read back as it was written. -/
theorem catalog_codec_exact :
    (∀ (id : UInt32) (schema : Schema),
      decodeTableEntry (encodeTableEntry id schema) = .ok (id, schema) ↔
        FitsName schema.tableName ∧ (∀ c ∈ schema.columns, FitsName c.name) ∧
          schema.columns.length ≤ 65535) ∧
    ∀ names : List String, decodeTableIndex (encodeTableIndex names) = .ok names ↔
      (∀ name ∈ names, FitsName name) ∧ names.length < 2 ^ 32 := by
  refine ⟨fun id schema => ⟨fun h => ?_, ?_⟩, fun names => ⟨decodeTableIndex_fits, ?_⟩⟩
  · obtain ⟨hname, hcols, hlen⟩ := decodeTableEntry_fits h
    exact ⟨hname, hcols, hlen⟩
  · rintro ⟨hname, hcols, hlen⟩
    exact decodeTableEntry_encode id ⟨hname, hcols, hlen⟩
  · rintro ⟨hnames, hlen⟩
    exact decodeTableIndex_encode hnames hlen

end Choam
