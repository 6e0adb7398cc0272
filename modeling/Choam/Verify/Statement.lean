import Choam.Verify.Lookup

/-!
# What a statement asks of its transaction

`RowM.Guarantees` is the judgement about a program inside a transaction, whatever it is answered.
`run_ensures` says once what an INSERT, SELECT, UPDATE or DELETE can ask for: it looks up the table
it names, reads and scans rows, and writes and deletes under row keys of the table it found; it
writes only encodings of rows, made of values that came from literals of the statement or from
decoded rows; and it fails to decode only what it was answered.
-/

namespace Choam

open ByteString Overlay

variable {E ε ε' α β : Type}

/-- What an operation may be answered. -/
abbrev Answers := (o : RowOp) → o.Res → Prop

namespace RowM

/-- Under answers in `ans`, the program asks only for operations in `P`, succeeds only with a
result in `Q` and fails only with an error in `Qe`. -/
def Guarantees (ans : Answers) (P : RowOp → Prop) (m : RowM ε α) (Q : α → Prop) (Qe : ε → Prop) :
    Prop :=
  Prog.Ensures ans P (ExceptT.run m) fun
    | .ok a => Q a
    | .error e => Qe e

variable {ans : Answers} {P : RowOp → Prop} {Q Q' : α → Prop} {Qe Qe' : ε → Prop}

@[simp] theorem guarantees_pure {a : α} : (pure a : RowM ε α).Guarantees ans P Q Qe ↔ Q a := Iff.rfl

@[simp] theorem guarantees_throw {e : ε} : (throw e : RowM ε α).Guarantees ans P Q Qe ↔ Qe e := Iff.rfl

theorem Guarantees.mono {m : RowM ε α} (h : m.Guarantees ans P Q Qe) (hQ : ∀ a, Q a → Q' a)
    (hQe : ∀ e, Qe e → Qe' e) : m.Guarantees ans P Q' Qe' := by
  refine Prog.Ensures.mono h fun r => ?_
  cases r with
  | ok a => exact hQ a
  | error e => exact hQe e

theorem Guarantees.bind {m : RowM ε α} {f : α → RowM ε β} {R : β → Prop}
    (h : m.Guarantees ans P Q Qe) (hf : ∀ a, Q a → (f a).Guarantees ans P R Qe) :
    (m >>= f).Guarantees ans P R Qe := by
  unfold Guarantees
  rw [ExceptT.run_bind, Prog.ensures_bind]
  refine Prog.Ensures.mono h fun r hr => ?_
  cases r with
  | ok a => exact hf a hr
  | error e => exact hr

theorem guarantees_ofExcept {f : ε' → ε} {r : Except ε' α} (hok : ∀ a, r = .ok a → Q a)
    (herr : ∀ e, r = .error e → Qe (f e)) : (ofExcept f r).Guarantees ans P Q Qe := by
  cases r with
  | ok a => exact hok a rfl
  | error e => exact herr e rfl

theorem Guarantees.adapt {f : ε → ε'} {m : RowM ε α} {F : ε' → Prop}
    (h : m.Guarantees ans P Q fun e => F (f e)) : Guarantees ans P (ExceptT.adapt f m) Q F := by
  unfold Guarantees
  rw [ExceptT.run_adapt, Prog.ensures_map]
  refine Prog.Ensures.mono h fun r hr => ?_
  cases r with
  | ok a => exact hr
  | error e => exact hr

theorem guarantees_read {k : Bytes} {Q : Option Bytes → Prop} (hP : P (.read k))
    (hQ : ∀ r, ans (.read k) r → Q r) : (read k : RowM ε _).Guarantees ans P Q Qe := ⟨hP, hQ⟩

theorem guarantees_scan {p : Bytes} {Q : List (Bytes × Bytes) → Prop} (hP : P (.scan p))
    (hQ : ∀ r, ans (.scan p) r → Q r) : (scan p : RowM ε _).Guarantees ans P Q Qe := ⟨hP, hQ⟩

theorem guarantees_put {k v : Bytes} {Q : Unit → Prop} (hP : P (.put k v)) (hQ : Q ()) :
    (put k v : RowM ε _).Guarantees ans P Q Qe := ⟨hP, fun _ _ => hQ⟩

theorem guarantees_delete {k : Bytes} {Q : Unit → Prop} (hP : P (.delete k)) (hQ : Q ()) :
    (delete k : RowM ε _).Guarantees ans P Q Qe := ⟨hP, fun _ _ => hQ⟩

end RowM

/-! ## Values that fit their length fields -/

def Literal.Fits (l : Literal) : Prop := (literalValue l).Fits

/-- Every text literal of the expression fits a 32-bit length field. -/
def Expr.Fits : Expr → Prop
  | .literal l => l.Fits
  | .column _ => True
  | .unary _ e => e.Fits
  | .binary l _ r => l.Fits ∧ r.Fits
  | .isNull e _ => e.Fits

/-- So does every literal that the statement may store. -/
def Statement.Fits : Statement → Prop
  | .insert _ _ rows => ∀ exprs ∈ rows, ∀ e ∈ exprs, e.Fits
  | .update _ assignments _ => ∀ a ∈ assignments, a.2.Fits
  | _ => True

theorem arithmetic_fits {f : Int64 → Int64 → Except (ExecError E) (Option Int64)} {a b v : Value}
    (h : arithmetic f a b = .ok v) : v.Fits := by
  unfold arithmetic at h
  split at h
  · cases h
    trivial
  split at h
  · split at h
    · cases h
    · cases h
    · cases h
      trivial
  · cases h

theorem comparison3_fits {f : Ordering → Bool} {a b v : Value}
    (h : (comparison3 f a b : Except (ExecError E) Value) = .ok v) : v.Fits := by
  unfold comparison3 at h
  split at h
  · cases h
    trivial
  split at h
  · cases h
    trivial
  · cases h

theorem logical_fits {op : BinaryOp} {f : Option Bool → Option Bool → Option Bool} {a b v : Value}
    (h : (logical op f a b : Except (ExecError E) Value) = .ok v) : v.Fits := by
  obtain ⟨x, -, h⟩ := Except.bind_eq_ok.mp h
  obtain ⟨y, -, h⟩ := Except.bind_eq_ok.mp h
  cases h
  cases f x y <;> trivial

theorem binary_fits {op : BinaryOp} {a b v : Value}
    (h : (binary op a b : Except (ExecError E) Value) = .ok v) : v.Fits := by
  cases op
  all_goals first
    | exact arithmetic_fits h
    | exact comparison3_fits h
    | exact logical_fits h

theorem unary_fits {op : UnaryOp} {a v : Value}
    (h : (unary op a : Except (ExecError E) Value) = .ok v) : v.Fits := by
  unfold unary at h
  split at h
  · cases h
    trivial
  · split at h
    · cases h
      trivial
    · cases h
  · cases h
    trivial
  · cases h
  · cases h

/-- An expression whose literals fit has a value that fits, on a row whose values do. -/
theorem eval_fits {e : Expr} {ctx : RowCtx} {v : Value} (he : e.Fits)
    (hctx : ∀ c, ctx = some c → ∀ v ∈ c.2, v.Fits)
    (h : (eval e ctx : Except (ExecError E) Value) = .ok v) : v.Fits := by
  cases e with
  | literal l =>
    cases h
    exact he
  | column name =>
    simp only [eval] at h
    split at h
    · cases h
    split at h
    · cases h
    split at h
    next hv =>
      cases h
      exact hctx _ rfl _ (List.mem_of_getElem? hv)
    · cases h
  | unary op e =>
    obtain ⟨a, -, h⟩ := Except.bind_eq_ok.mp h
    exact unary_fits h
  | binary l op r =>
    obtain ⟨a, -, h⟩ := Except.bind_eq_ok.mp h
    obtain ⟨b, -, h⟩ := Except.bind_eq_ok.mp h
    exact binary_fits h
  | isNull e negated =>
    obtain ⟨a, -, h⟩ := Except.bind_eq_ok.mp h
    cases h
    trivial

def Row.Fits (row : Row) : Prop := ∀ v ∈ row, v.Fits

theorem Row.Fits.set {row : Row} (h : Row.Fits row) {v : Value} (hv : v.Fits) (i : Nat) :
    Row.Fits (row.set i v) := fun w hw => by
  rcases List.mem_or_eq_of_mem_set hw with hw | rfl
  · exact h w hw
  · exact hv

theorem fillRow_fits {targets : List (Nat × Expr)} {values new : Row}
    (htargets : ∀ p ∈ targets, p.2.Fits) (hvalues : Row.Fits values)
    (h : (fillRow targets values : Except (ExecError E) Row) = .ok new) : Row.Fits new := by
  induction targets generalizing values with
  | nil =>
    cases h
    exact hvalues
  | cons p rest ih =>
    obtain ⟨v, hv, h⟩ := Except.bind_eq_ok.mp h
    exact ih (fun p hp => htargets p (by simp [hp]))
      (hvalues.set (eval_fits (htargets p (by simp)) (by simp) hv) _) h

theorem assignRow_fits {schema : Schema} {old : Row} {targets : List (Nat × Expr)}
    {values new : Row} (htargets : ∀ p ∈ targets, p.2.Fits) (hold : Row.Fits old)
    (hvalues : Row.Fits values)
    (h : (assignRow schema old targets values : Except (ExecError E) Row) = .ok new) :
    Row.Fits new := by
  induction targets generalizing values with
  | nil =>
    cases h
    exact hvalues
  | cons p rest ih =>
    obtain ⟨v, hv, h⟩ := Except.bind_eq_ok.mp h
    have hv := eval_fits (htargets p (by simp)) (fun c hc => by cases hc; exact hold) hv
    exact ih (fun p hp => htargets p (by simp [hp])) (hvalues.set hv _) h

/-- The targets of an UPDATE keep the expressions of its assignments. -/
theorem updateTargets_mem {u : Unicode} {schema : Schema} {assignments : List (String × Expr)}
    {targets targets' : List (Nat × Expr)} {Good : Expr → Prop}
    (hassign : ∀ a ∈ assignments, Good a.2) (htargets : ∀ p ∈ targets, Good p.2)
    (h : (updateTargets u schema assignments targets : Except (ExecError E) _) = .ok targets') :
    ∀ p ∈ targets', Good p.2 := by
  induction assignments generalizing targets with
  | nil =>
    cases h
    exact htargets
  | cons a rest ih =>
    obtain ⟨i, -, h⟩ := Except.bind_eq_ok.mp h
    split at h
    · cases h
    split at h
    · cases h
    obtain ⟨ty, -, h⟩ := Except.bind_eq_ok.mp h
    dsimp only at h
    split at h
    · cases h
    refine ih (fun a ha => hassign a (by simp [ha])) (fun p hp => ?_) h
    rcases List.mem_append.mp hp with hp | hp
    · exact htargets p hp
    · rw [List.mem_singleton] at hp
      subst hp
      exact hassign a (by simp)

theorem keepRows_subset {filter : Option Expr} {schema : Schema} {rows kept : List Row}
    (h : (keepRows filter schema rows : Except (ExecError E) _) = .ok kept) : kept ⊆ rows := by
  induction rows generalizing kept with
  | nil =>
    cases h
    simp
  | cons row rows ih =>
    obtain ⟨keep, -, h⟩ := Except.bind_eq_ok.mp h
    obtain ⟨kept', hkept, h⟩ := Except.bind_eq_ok.mp h
    cases h
    have := ih hkept
    split
    · exact List.cons_subset_cons _ this
    · exact fun r hr => List.mem_cons_of_mem _ (this hr)

theorem decodeRows_mem {schema : Schema} {es : List (Bytes × Bytes)} {rows : List Row} {row : Row}
    (h : RelTransaction.decodeRows schema es = .ok rows) (hrow : row ∈ rows) :
    ∃ e ∈ es, decodeRow schema e.2 = .ok row := by
  induction es generalizing rows with
  | nil =>
    cases h
    cases hrow
  | cons e es ih =>
    unfold RelTransaction.decodeRows at h
    rw [List.mapM_cons] at h
    obtain ⟨r, hr, h⟩ := Except.bind_eq_ok.mp h
    obtain ⟨rs, hrs, h⟩ := Except.bind_eq_ok.mp h
    cases h
    rcases List.mem_cons.mp hrow with rfl | hrow
    · exact ⟨e, by simp, hr⟩
    · obtain ⟨e', he', hrow⟩ := ih hrs hrow
      exact ⟨e', by simp [he'], hrow⟩

theorem decodeRows_isOk {schema : Schema} {es : List (Bytes × Bytes)}
    (h : ∀ e ∈ es, ∃ row, decodeRow schema e.2 = .ok row) :
    ∃ rows, RelTransaction.decodeRows schema es = .ok rows := by
  induction es with
  | nil => exact ⟨[], rfl⟩
  | cons e es ih =>
    obtain ⟨row, hrow⟩ := h e (by simp)
    obtain ⟨rows, hrows⟩ := ih fun e' he' => h e' (by simp [he'])
    unfold RelTransaction.decodeRows at hrows ⊢
    exact ⟨row :: rows, by rw [List.mapM_cons, hrow, hrows]; rfl⟩

/-! ## The operations of a statement -/

/-- The error came from decoding stored bytes. -/
def DbError.IsDecode : DbError E → Prop
  | .row .truncated => True
  | .row (.value (.truncated _)) | .row (.value .invalidUtf8) => True
  | .value (.truncated _) | .value .invalidUtf8 => True
  | _ => False

def ExecError.IsDecode : ExecError E → Prop
  | .db e => e.IsDecode
  | _ => False

/-- Computed from rows that are already decoded. -/
def NoDecode (r : Except (ExecError E) α) : Prop := ∀ e, r = .error e → ¬ e.IsDecode

@[simp] theorem noDecode_ok (a : α) : NoDecode (.ok a : Except (ExecError E) α) := nofun

@[simp] theorem noDecode_error {e : ExecError E} :
    NoDecode (.error e : Except (ExecError E) α) ↔ ¬ e.IsDecode :=
  ⟨fun h => h e rfl, fun h e' he' => by cases he'; exact h⟩

theorem NoDecode.bind {r : Except (ExecError E) α} {f : α → Except (ExecError E) β}
    (h : NoDecode r) (hf : ∀ a, NoDecode (f a)) : NoDecode (r >>= f) := by
  cases r with
  | ok a => exact hf a
  | error e => exact fun e' he' => h e' (by cases he'; rfl)

theorem noDecode_binary (op : BinaryOp) (a b : Value) :
    NoDecode (binary op a b : Except (ExecError E) Value) := by
  have hbool : ∀ op v, NoDecode (asBool op v : Except (ExecError E) _) := fun op v => by
    cases v <;> simp [asBool, mismatch, ExecError.IsDecode]
  have hlogical : ∀ op f a b, NoDecode (logical op f a b : Except (ExecError E) _) :=
    fun op f a b => (hbool op a).bind fun x => (hbool op b).bind fun y => noDecode_ok _
  have harith : ∀ f : Int64 → Int64 → Except (ExecError E) (Option Int64),
      (∀ x y, NoDecode (f x y)) → NoDecode (arithmetic f a b) := fun f hf => by
    unfold arithmetic
    split
    · simp
    split
    next x y _ =>
      have := hf x y
      split
      next he =>
        rw [he] at this
        simpa using this
      · simp [ExecError.IsDecode]
      · simp
    · simp [mismatch, ExecError.IsDecode]
  have hcomp : ∀ f, NoDecode (comparison3 f a b : Except (ExecError E) _) := fun f => by
    unfold comparison3
    split
    · simp
    split
    · simp
    · simp [mismatch, ExecError.IsDecode]
  cases op
  case div =>
    refine harith _ fun x y => ?_
    split <;> simp [ExecError.IsDecode]
  all_goals first
    | exact hlogical _ _ _ _
    | exact hcomp _
    | exact harith _ fun x y => noDecode_ok _

theorem noDecode_unary (op : UnaryOp) (v : Value) :
    NoDecode (unary op v : Except (ExecError E) Value) := by
  unfold unary
  split
  · simp
  · split <;> simp [ExecError.IsDecode]
  · simp
  · simp [mismatch, ExecError.IsDecode]
  · simp [mismatch, ExecError.IsDecode]

theorem noDecode_eval (e : Expr) (ctx : RowCtx) :
    NoDecode (eval e ctx : Except (ExecError E) Value) := by
  induction e with
  | literal l => exact noDecode_ok _
  | column name =>
    unfold eval
    split
    · simp [ExecError.IsDecode]
    split
    · simp [ExecError.IsDecode]
    split <;> simp [ExecError.IsDecode]
  | unary op e ih => exact ih.bind fun v => noDecode_unary op v
  | binary l op r ihl ihr => exact ihl.bind fun a => ihr.bind fun b => noDecode_binary op a b
  | isNull e negated ih => exact ih.bind fun v => noDecode_ok _

theorem noDecode_checkType (e : Expr) (schema : Option Schema) :
    NoDecode (checkType e schema : Except (ExecError E) Ty) := by
  induction e with
  | literal l => exact noDecode_ok _
  | column name =>
    unfold checkType
    split
    · simp [ExecError.IsDecode]
    split <;> simp [ExecError.IsDecode]
  | unary op e ih =>
    refine ih.bind fun t => ?_
    split
    · exact noDecode_ok _
    · simp [ExecError.IsDecode]
  | binary l op r ihl ihr =>
    refine ihl.bind fun a => ihr.bind fun b => ?_
    cases op <;> simp only [checkBinary, checkOperands, checkComparison] <;> split <;>
      simp [ExecError.IsDecode]
  | isNull e negated ih => exact ih.bind fun t => noDecode_ok _

theorem noDecode_checkFilter (filter : Option Expr) (schema : Schema) :
    NoDecode (checkFilter filter schema : Except (ExecError E) Unit) := by
  cases filter with
  | none => exact noDecode_ok _
  | some f =>
    refine (noDecode_checkType f _).bind fun t => ?_
    split
    · exact noDecode_ok _
    · simp [ExecError.IsDecode]

theorem noDecode_keepRows (filter : Option Expr) (schema : Schema) (rows : List Row) :
    NoDecode (keepRows filter schema rows : Except (ExecError E) _) := by
  have hkeeps : ∀ row, NoDecode (keepsRow filter schema row : Except (ExecError E) Bool) :=
    fun row => by
      cases filter with
      | none => exact noDecode_ok _
      | some f =>
        refine (noDecode_eval f _).bind fun v => ?_
        split <;> simp [pure, Except.pure, ExecError.IsDecode]
  induction rows with
  | nil => exact noDecode_ok _
  | cons row rows ih => exact (hkeeps row).bind fun keep => ih.bind fun kept => noDecode_ok _

theorem noDecode_columnIndex (schema : Schema) (name : String) :
    NoDecode (columnIndex schema name : Except (ExecError E) Nat) := by
  unfold columnIndex
  split <;> simp [ExecError.IsDecode]

theorem noDecode_insertTargets (schema : Schema) (columns : Option (List String)) :
    NoDecode (insertTargets schema columns : Except (ExecError E) (List Nat)) := by
  have hnamed : ∀ names idx, NoDecode (namedTargets schema names idx : Except (ExecError E) _) := by
    intro names
    induction names with
    | nil => exact fun idx => noDecode_ok _
    | cons n names ih =>
      refine fun idx => (noDecode_columnIndex schema n).bind fun i => ?_
      split
      · simp [ExecError.IsDecode]
      · exact ih _
  cases columns with
  | none => exact noDecode_ok _
  | some names => exact hnamed names []

theorem noDecode_fillRow (targets : List (Nat × Expr)) (values : Row) :
    NoDecode (fillRow targets values : Except (ExecError E) Row) := by
  induction targets generalizing values with
  | nil => exact noDecode_ok _
  | cons p rest ih => exact (noDecode_eval p.2 none).bind fun v => ih _

theorem noDecode_pickColumns (schema : Schema) (projection : Projection) :
    NoDecode (pickColumns schema projection : Except (ExecError E) (List Nat)) := by
  cases projection with
  | all => exact noDecode_ok _
  | columns names =>
    induction names with
    | nil => exact noDecode_ok _
    | cons n names ih =>
      simp only [pickColumns, List.mapM_cons] at ih ⊢
      exact (noDecode_columnIndex schema n).bind fun i => ih.bind fun is => noDecode_ok _

theorem noDecode_orderColumn (schema : Schema) (orderBy : Option OrderBy) :
    NoDecode (orderColumn schema orderBy : Except (ExecError E) _) := by
  cases orderBy with
  | none => exact noDecode_ok _
  | some o => exact (noDecode_columnIndex schema o.column).bind fun i => noDecode_ok _

theorem noDecode_updateTargets (u : Unicode) (schema : Schema) (assignments : List (String × Expr))
    (targets : List (Nat × Expr)) :
    NoDecode (updateTargets u schema assignments targets : Except (ExecError E) _) := by
  induction assignments generalizing targets with
  | nil => exact noDecode_ok _
  | cons a rest ih =>
    refine (noDecode_columnIndex schema a.1).bind fun i => ?_
    split
    · simp [ExecError.IsDecode]
    split
    · simp [ExecError.IsDecode]
    refine (noDecode_checkType a.2 _).bind fun ty => ?_
    dsimp only
    split
    · simp [ExecError.IsDecode]
    · exact ih _

theorem noDecode_assignRow (schema : Schema) (old : Row) (targets : List (Nat × Expr)) (new : Row) :
    NoDecode (assignRow schema old targets new : Except (ExecError E) Row) := by
  induction targets generalizing new with
  | nil => exact noDecode_ok _
  | cons p rest ih => exact (noDecode_eval p.2 _).bind fun v => ih _

/-- What a program on one table may ask for and be answered. `Found` are the handles that its
lookups can return, `fits` says that the values it stores are known to fit, `Bad` that an answer
may have been undecodable. -/
structure Allows (table : String) (ans : Answers) (P : RowOp → Prop) (Found : TableHandle → Prop)
    (fits Bad : Prop) : Prop where
  get : ∀ k, catalogTableKey table = some k → P (.get k)
  found : ∀ k bytes id schema, catalogTableKey table = some k → ans (.get k) (some bytes) →
    decodeTableEntry bytes = .ok (id, schema) → Found ⟨id, schema⟩
  read : ∀ k, P (.read k)
  readBad : ∀ h pk k bytes e, Found h → rowKey h.tableId pk h.schema.primaryKeyType = .ok k →
    ans (.read k) (some bytes) → decodeRow h.schema bytes = .error e → Bad
  scan : ∀ p, P (.scan p)
  scanBad : ∀ h es e, Found h → ans (.scan (rowKeyPrefix h.tableId)) es →
    RelTransaction.decodeRows h.schema es = .error e → Bad
  put : ∀ h pk values k bs, Found h → values[h.schema.primaryKey]? = some pk →
    rowKey h.tableId pk h.schema.primaryKeyType = .ok k → encodeRow h.schema values = .ok bs →
    (fits → Row.Fits values) → P (.put k bs)
  delete : ∀ h pk k, Found h → rowKey h.tableId pk h.schema.primaryKeyType = .ok k → P (.delete k)

section Allows

variable {table : String} {ans : Answers} {P : RowOp → Prop} {Found : TableHandle → Prop}
  {fits Bad : Prop} (ok : Allows table ans P Found fits Bad)
include ok

theorem guarantees_getTable : RowM.Guarantees ans P (Database.getTable (E := E) table)
    (fun o => ∀ h, o = some h → Found h) fun e => e.IsDecode → Bad := by
  refine RowM.Guarantees.adapt ?_
  unfold Catalog.getTable
  cases hk : catalogTableKey table with
  | none => exact fun h hh => by cases hh
  | some k =>
    refine RowM.Guarantees.bind (Q := fun r => ans (.get k) r) ⟨ok.get k hk, fun r hr => hr⟩
      fun r hr => ?_
    cases r with
    | none => exact fun h hh => by cases hh
    | some bytes =>
      dsimp only
      cases hd : decodeTableEntry bytes with
      | error e => exact fun h : False => h.elim
      | ok e =>
        intro h hh
        cases hh
        exact ok.found k bytes e.1 e.2 hk hr hd

theorem guarantees_tableHandle : RowM.Guarantees ans P (Database.tableHandle (E := E) table)
    Found fun e => e.IsDecode → Bad := by
  refine RowM.Guarantees.bind (guarantees_getTable ok) fun o ho => ?_
  cases o with
  | none => exact fun h : False => h.elim
  | some h => exact ho h rfl

theorem guarantees_schemaOf : RowM.Guarantees ans P (schemaOf (E := E) table)
    (fun _ => True) fun e => e.IsDecode → Bad := by
  refine RowM.Guarantees.bind
    (RowM.Guarantees.adapt (F := fun e : ExecError E => e.IsDecode → Bad) (guarantees_getTable ok))
    fun o _ => ?_
  cases o with
  | none => exact fun h : False => h.elim
  | some h => trivial

/-! ### Operations on rows -/

omit ok in
theorem guarantees_rowKey {h : TableHandle} {pk : Value} :
    RowM.Guarantees ans P
      (.ofExcept DbError.value (rowKey h.tableId pk h.schema.primaryKeyType) : RowM (DbError E) _)
      (fun k => rowKey h.tableId pk h.schema.primaryKeyType = .ok k)
      fun e => e.IsDecode → Bad := by
  refine RowM.guarantees_ofExcept (fun k hk => hk) fun e he => ?_
  obtain rfl := rowKey_typeMismatch he
  exact fun h : False => h.elim

theorem guarantees_relRead (pk : Value) :
    RowM.Guarantees ans P (RelTransaction.read (E := E) table pk)
      (fun o => ∀ row, o = some row → Row.Fits row) fun e => e.IsDecode → Bad := by
  refine RowM.Guarantees.bind (guarantees_tableHandle ok) fun h hh =>
    RowM.Guarantees.bind guarantees_rowKey fun k hk => ?_
  refine RowM.Guarantees.bind (Q := fun r => ans (.read k) r)
    (RowM.guarantees_read (ok.read k) fun r hr => hr) fun r hr => ?_
  cases r with
  | none => exact fun row hrow => by cases hrow
  | some bytes =>
    refine RowM.Guarantees.bind (Q := fun row => decodeRow h.schema bytes = .ok row)
      (RowM.guarantees_ofExcept (fun row hrow => hrow) fun e he _ =>
        ok.readBad h pk k bytes e hh hk hr he)
      fun row hrow => ?_
    intro row' hrow'
    cases hrow'
    exact (decodeRow_types hrow).2

theorem guarantees_relScan : RowM.Guarantees ans P (RelTransaction.scan (E := E) table)
    (fun rows => ∀ row ∈ rows, Row.Fits row) fun e => e.IsDecode → Bad := by
  refine RowM.Guarantees.bind (guarantees_tableHandle ok) fun h hh => ?_
  refine RowM.Guarantees.bind (Q := fun es => ans (.scan (rowKeyPrefix h.tableId)) es)
    (RowM.guarantees_scan (ok.scan _) fun r hr => hr) fun es hes => ?_
  refine RowM.guarantees_ofExcept (fun rows hrows row hrow => ?_)
    fun e he _ => ok.scanBad h es e hh hes he
  obtain ⟨entry, -, hentry⟩ := decodeRows_mem hrows hrow
  exact (decodeRow_types hentry).2

theorem guarantees_relWrite {values : Row} (hfits : fits → Row.Fits values) :
    RowM.Guarantees ans P (RelTransaction.write (E := E) table values) (fun _ => True)
      fun e => e.IsDecode → Bad := by
  refine RowM.Guarantees.bind (guarantees_tableHandle ok) fun h hh => ?_
  cases hpk : values[h.schema.primaryKey]? with
  | none => exact fun h : False => h.elim
  | some pk =>
    refine RowM.Guarantees.bind guarantees_rowKey fun k hk => ?_
    refine RowM.Guarantees.bind (Q := fun bs => encodeRow h.schema values = .ok bs)
      (RowM.guarantees_ofExcept (fun bs hbs => hbs) fun e he => ?_) fun bs hbs =>
        RowM.guarantees_put (ok.put h pk values k bs hh hpk hk hbs hfits) trivial
    rcases encodeRow_error he with ⟨n, m, rfl⟩ | ⟨c, rfl⟩ | ⟨ty, found, rfl⟩ <;>
      exact fun h : False => h.elim

theorem guarantees_relDelete (pk : Value) :
    RowM.Guarantees ans P (RelTransaction.delete (E := E) table pk) (fun _ => True)
      fun e => e.IsDecode → Bad := by
  refine RowM.Guarantees.bind (guarantees_tableHandle ok) fun h hh =>
    RowM.Guarantees.bind guarantees_rowKey fun k hk => ?_
  exact RowM.guarantees_delete (ok.delete h pk k hh hk) trivial

/-! ### Statements -/

omit ok in
theorem guarantees_computed {r : Except (ExecError E) α} (h : NoDecode r) :
    RowM.Guarantees ans P (.ofExcept id r : RowM (ExecError E) α) (fun a => r = .ok a)
      fun e => e.IsDecode → Bad :=
  RowM.guarantees_ofExcept (fun _ ha => ha) fun e he hd => absurd hd (h e he)

theorem guarantees_matchingRows (schema : Schema) (filter : Option Expr) :
    RowM.Guarantees ans P (matchingRows (E := E) table schema filter)
      (fun rows => ∀ row ∈ rows, Row.Fits row) fun e => e.IsDecode → Bad := by
  have hcandidates : RowM.Guarantees ans P (candidateRows (E := E) table schema filter)
      (fun rows => ∀ row ∈ rows, Row.Fits row) fun e => e.IsDecode → Bad := by
    refine RowM.Guarantees.bind (guarantees_computed (noDecode_checkFilter filter schema))
      fun _ _ => ?_
    cases accessPath schema filter with
    | pointLookup pk =>
      refine RowM.Guarantees.bind
        (RowM.Guarantees.adapt (F := fun e : ExecError E => e.IsDecode → Bad)
          (guarantees_relRead ok pk)) fun o ho => ?_
      exact fun row hrow => ho row (Option.mem_toList.mp hrow)
    | fullScan =>
      exact RowM.Guarantees.adapt (F := fun e : ExecError E => e.IsDecode → Bad)
        (guarantees_relScan ok)
  refine RowM.Guarantees.bind hcandidates fun rows hrows => ?_
  exact RowM.Guarantees.mono (guarantees_computed (noDecode_keepRows filter schema rows))
    (fun kept hkept row hrow => hrows row (keepRows_subset hkept hrow)) fun e he => he

theorem guarantees_insertRow {schema : Schema} {targets : List Nat} {exprs : List Expr}
    (hfits : fits → ∀ e ∈ exprs, e.Fits) :
    RowM.Guarantees ans P (insertRow (E := E) table schema targets exprs) (fun _ => True)
      fun e => e.IsDecode → Bad := by
  unfold insertRow
  split
  · exact fun h : False => h.elim
  refine RowM.Guarantees.bind (guarantees_computed (noDecode_fillRow _ _)) fun values hvalues => ?_
  have hrow : fits → Row.Fits values := fun hf =>
    fillRow_fits (fun p hp => hfits hf p.2 (List.of_mem_zip hp).2)
      (fun v hv => by rw [List.eq_of_mem_replicate hv]; trivial) hvalues
  split
  · exact fun h : False => h.elim
  · exact fun h : False => h.elim
  refine RowM.Guarantees.bind
    (RowM.Guarantees.adapt (F := fun e : ExecError E => e.IsDecode → Bad)
      (guarantees_relRead ok _)) fun o _ => ?_
  cases o with
  | some _ => exact fun h : False => h.elim
  | none =>
    exact RowM.Guarantees.adapt (F := fun e : ExecError E => e.IsDecode → Bad)
      (guarantees_relWrite ok hrow)

theorem guarantees_insertRows {schema : Schema} {targets : List Nat} {rows : List (List Expr)}
    (hfits : fits → ∀ exprs ∈ rows, ∀ e ∈ exprs, e.Fits) :
    RowM.Guarantees ans P (insertRows (E := E) table schema targets rows) (fun _ => True)
      fun e => e.IsDecode → Bad := by
  induction rows with
  | nil => trivial
  | cons exprs rows ih =>
    exact RowM.Guarantees.bind (guarantees_insertRow ok fun hf => hfits hf exprs (by simp))
      fun _ _ => ih fun hf exprs he => hfits hf exprs (by simp [he])

theorem guarantees_updateRows {schema : Schema} {targets : List (Nat × Expr)} {rows : List Row}
    (hfits : fits → ∀ p ∈ targets, p.2.Fits) (hrows : ∀ row ∈ rows, Row.Fits row) :
    RowM.Guarantees ans P (updateRows (E := E) table schema targets rows) (fun _ => True)
      fun e => e.IsDecode → Bad := by
  induction rows with
  | nil => trivial
  | cons old rows ih =>
    refine RowM.Guarantees.bind (guarantees_computed (noDecode_assignRow _ _ _ _)) fun new hnew => ?_
    have hold := hrows old (by simp)
    refine RowM.Guarantees.bind
      (RowM.Guarantees.adapt (F := fun e : ExecError E => e.IsDecode → Bad)
        (guarantees_relWrite ok fun hf => assignRow_fits (hfits hf) hold hold hnew)) fun _ _ => ?_
    exact ih fun row hrow => hrows row (by simp [hrow])

theorem guarantees_deleteRows {schema : Schema} {rows : List Row} :
    RowM.Guarantees ans P (deleteRows (E := E) table schema rows) (fun _ => True)
      fun e => e.IsDecode → Bad := by
  induction rows with
  | nil => trivial
  | cons row rows ih =>
    unfold deleteRows
    split
    · exact fun h : False => h.elim
    exact RowM.Guarantees.bind
      (RowM.Guarantees.adapt (F := fun e : ExecError E => e.IsDecode → Bad)
        (guarantees_relDelete ok _)) fun _ _ => ih

/-- **What a statement does**: it asks only for what `Allows` lists for the table it names, and
fails to decode only what it was answered. -/
theorem guarantees_run {u : Unicode} {stmt : Statement} (htable : stmt.table? = some table)
    (hfits : fits → stmt.Fits) :
    RowM.Guarantees ans P (run (E := E) u stmt) (fun _ => True) fun e => e.IsDecode → Bad := by
  cases stmt with
  | insert name columns rows =>
    cases htable
    refine RowM.Guarantees.bind (guarantees_schemaOf ok) fun schema _ => ?_
    refine RowM.Guarantees.bind (guarantees_computed (noDecode_insertTargets _ _)) fun targets _ => ?_
    exact RowM.Guarantees.bind (guarantees_insertRows ok hfits) fun _ _ => trivial
  | select projection name filter orderBy limit =>
    cases htable
    refine RowM.Guarantees.bind (guarantees_schemaOf ok) fun schema _ => ?_
    refine RowM.Guarantees.bind (guarantees_computed (noDecode_pickColumns _ _)) fun picked _ => ?_
    refine RowM.Guarantees.bind (guarantees_computed (noDecode_orderColumn _ _)) fun order _ => ?_
    exact RowM.Guarantees.bind (guarantees_matchingRows ok schema filter) fun _ _ => trivial
  | update name assignments filter =>
    cases htable
    refine RowM.Guarantees.bind (guarantees_schemaOf ok) fun schema _ => ?_
    refine RowM.Guarantees.bind (guarantees_computed (noDecode_updateTargets _ _ _ _))
      fun targets htargets => ?_
    refine RowM.Guarantees.bind (guarantees_matchingRows ok schema filter) fun rows hrows => ?_
    exact RowM.Guarantees.bind (guarantees_updateRows ok
      (fun hf => updateTargets_mem (hfits hf) (by simp) htargets) hrows) fun _ _ => trivial
  | delete name filter =>
    cases htable
    refine RowM.Guarantees.bind (guarantees_schemaOf ok) fun schema _ => ?_
    refine RowM.Guarantees.bind (guarantees_matchingRows ok schema filter) fun rows _ => ?_
    exact RowM.Guarantees.bind (guarantees_deleteRows ok) fun _ _ => trivial
  | createTable | begin | commit | rollback => cases htable

end Allows

end Choam
