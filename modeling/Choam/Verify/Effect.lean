import Choam.Verify.Atomic

/-!
# What statements do to what a transaction sees

`Effect` is a statement on rows as a change of contents: in a transaction that sees `c` it replies
`r`, and the transaction sees `c'` from then on. It does not matter in which transaction and on
which store that happens (`Effect.unique`). `Effects` is several statements one after another.
-/

namespace Choam

open ByteString Overlay

variable {H : Host} (C : H.Contract) (u : Unicode)

/-- Executed in a transaction that sees `c`, its tables among it, the statement replies `r` and
makes of it `c'`. -/
structure Effect (stmt : Statement) (c : Contents Bytes Bytes) (r : Session.Reply H)
    (c' : Contents Bytes Bytes) : Prop where
  exec : ∃ s t t', (∀ k, ¬ IsRowKey k → C.committed s k = c k) ∧ C.view t = c ∧
    (run u stmt).exec s t = (r, t') ∧ C.view t' = c'

/-- Statements executed one after another, with their replies. -/
def Effects : Contents Bytes Bytes → List (Statement × Session.Reply H) → Contents Bytes Bytes → Prop
  | c, [], c' => c' = c
  | c, (stmt, r) :: rest, c' => ∃ m, Effect C u stmt c r m ∧ Effects m rest c'

variable {C u} {stmt : Statement} {table : String} {c c' c'' : Contents Bytes Bytes}
  {r r' : Session.Reply H}

theorem RowM.looksUp_run {E : Type} (htable : stmt.table? = some table) :
    RowM.LooksUp table (run u stmt : RowM (ExecError E) QueryResult) :=
  have hrun : RowM.OnTable False table (run u stmt : RowM (ExecError E) QueryResult) _ :=
    RowM.onTable_run htable False.elim
  hrun.looksUp

/-- A statement has one reply and one effect. -/
theorem Effect.unique (htable : stmt.table? = some table) (h : Effect C u stmt c r c')
    (h' : Effect C u stmt c r' c'') : r = r' ∧ c' = c'' := by
  obtain ⟨s, t, t₁, hcat, hview, hexec, rfl⟩ := h.exec
  obtain ⟨s', t', t₁', hcat', hview', hexec', rfl⟩ := h'.exec
  have hcat : ∀ k, catalogTableKey table = some k → C.committed s k = C.committed s' k := by
    intro k hk
    have hrow := not_isRowKey_of_catalogTableKey hk
    rw [hcat k hrow, hcat' k hrow]
  have hsame := (RowM.looksUp_run (u := u) (E := H.StoreError) htable).exec_congr hcat
    (hview.trans hview'.symm)
  rwa [hexec, hexec'] at hsame

/-- A statement that met the store `s` in a transaction on rows, begun on `base`, if the entry of
its table is still the same. -/
theorem Effect.of_exec {s : H.Store} (base : H.Store) {t t' : H.Txn} (htable : stmt.table? = some table)
    (hentry : ∀ k, catalogTableKey table = some k → C.committed s k = C.committed base k)
    (hbase : ∀ k, ¬ IsRowKey k → C.committed base k = C.view t k)
    (hexec : (run u stmt).exec s t = (r, t')) : Effect C u stmt (C.view t) r (C.view t') := by
  obtain ⟨hreply, hview⟩ := (RowM.looksUp_run (u := u) (E := H.StoreError) htable).exec_congr
    (C := C) (t := t) hentry rfl
  rw [hexec] at hreply hview
  exact ⟨base, t, ((run u stmt).exec base t).2, hbase, rfl, Prod.ext hreply.symm rfl, hview.symm⟩

theorem Effects.concat {rest : List (Statement × Session.Reply H)} (h : Effects C u c rest c')
    (hlast : Effect C u stmt c' r c'') : Effects C u c (rest ++ [(stmt, r)]) c'' := by
  induction rest generalizing c with
  | nil =>
    obtain rfl : c' = c := h
    exact ⟨c'', hlast, rfl⟩
  | cons x rest ih =>
    obtain ⟨m, hfirst, hrest⟩ := h
    exact ⟨m, hfirst, ih hrest⟩

/-- So have several. -/
theorem Effects.unique {l l' : List (Statement × Session.Reply H)}
    (hrows : ∀ x ∈ l, ∃ table, x.1.table? = some table) (hsame : l.map (·.1) = l'.map (·.1))
    (h : Effects C u c l c') (h' : Effects C u c l' c'') : l = l' ∧ c' = c'' := by
  induction l generalizing c l' with
  | nil =>
    obtain rfl : l' = [] := by simpa using hsame.symm
    exact ⟨rfl, Eq.trans h (Eq.symm h')⟩
  | cons x l ih =>
    obtain ⟨stmt, r⟩ := x
    match l', hsame, h' with
    | (stmt', r') :: l', hsame, h' =>
      obtain ⟨hstmt, hrest⟩ := List.cons.inj hsame
      obtain rfl : stmt = stmt' := hstmt
      obtain ⟨m, hfirst, htail⟩ := h
      obtain ⟨m', hfirst', htail'⟩ := h'
      obtain ⟨table, htable⟩ := hrows (stmt, r) (by simp)
      obtain ⟨rfl, rfl⟩ := hfirst.unique htable hfirst'
      obtain ⟨rfl, rfl⟩ := ih (fun x hx => hrows x (by simp [hx])) hrest htail htail'
      exact ⟨rfl, rfl⟩

end Choam
