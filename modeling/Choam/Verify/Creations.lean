import Choam.Verify.FirstCommitter
import Choam.Verify.Snapshot

/-!
# The tables that clients have created

Whatever is committed in between, every successful creation finds the catalog as it was when its
transaction began, and appends one table to it (`Catalogued`). So the catalog is the list of the
creations, in the order of their commits (`concurrent_creations`).
-/

namespace Choam

open ByteString Overlay Interleave Catalog

variable {H : Host} {C : H.Contract} {P : Promises} {u : Unicode}

/-! ## Reading the catalog -/

section Reads

variable {E α β : Type}

/-- The program on the store, alone. -/
abbrev alone (p : ExceptT E (StoreM H) α) (s : H.Store) : Except E α × H.Store :=
  (ExceptT.run p).run StoreOp.perform s

theorem alone_get (k : Bytes) (f : Option Bytes → ExceptT E (StoreM H) α) (s : H.Store) :
    alone (ExceptT.lift (StoreGet.get k) >>= f) s = alone (f (H.get s k)) s := rfl

theorem alone_bind_of {p : ExceptT E (StoreM H) α} {f : α → ExceptT E (StoreM H) β} {s : H.Store}
    {a : α} (h : alone p s = (.ok a, s)) : alone (p >>= f) s = alone (f a) s := by
  unfold alone at *
  rw [ExceptT.run_bind, Prog.run_bind, h]

theorem alone_getTable (s : H.Store) (name : String) :
    alone (Catalog.getTable (m := StoreM H) (E := E) name) s =
      ((lookupTable (H.get s) name).mapError .codec, s) := by
  unfold Catalog.getTable lookupTable
  cases catalogTableKey name with
  | none => rfl
  | some k =>
    dsimp only
    rw [alone_get]
    cases H.get s k with
    | none => rfl
    | some bytes =>
      dsimp only
      cases decodeTableEntry bytes <;> rfl

theorem alone_collectTables {s : H.Store} {names : List String} {tables : List TableHandle}
    (h : List.Forall₂ (fun name th => lookupTable (H.get s) name = .ok (some th)) names tables) :
    alone (Catalog.collectTables (m := StoreM H) (E := E) names) s = (.ok tables, s) := by
  induction h with
  | nil => rfl
  | @cons name th names tables hname hrest ih =>
    have hget : alone (Catalog.getTable (m := StoreM H) (E := E) name) s = (.ok (some th), s) := by
      rw [alone_getTable, hname]
      rfl
    rw [Catalog.collectTables, alone_bind_of hget]
    dsimp only
    rw [alone_bind_of ih]
    rfl

theorem alone_listTables {s : H.Store} {names : List String} {tables : List TableHandle}
    (hindex : indexedNames (H.get s catalogIndexKey) = .ok names)
    (h : List.Forall₂ (fun name th => lookupTable (H.get s) name = .ok (some th)) names tables) :
    alone (Catalog.listTables (m := StoreM H) (E := E)) s = (.ok tables, s) := by
  unfold Catalog.listTables
  rw [alone_get]
  unfold indexedNames at hindex
  cases hv : H.get s catalogIndexKey with
  | none =>
    rw [hv] at hindex
    cases hindex
    exact alone_collectTables h
  | some bytes =>
    rw [hv] at hindex
    dsimp only at hindex ⊢
    rw [hindex]
    exact alone_collectTables h

end Reads

/-! ## The commit of a creation -/

/-- The transaction `t` creates the table `th`; it began on the store `base`, with the first of the
accesses `seen`. -/
structure Creating (C : H.Contract) (u : Unicode) (seen : List (system H u).Access) (t : H.Txn)
    (base : H.Store) (th : TableHandle) : Prop where
  began : ∃ rest, seen = ⟨base, .begin, (H.begin base).1⟩ :: rest
  txn : ∃ key names, CreateTxn C t base key th.schema names
  id : th.tableId = nextTableId (C.committed base catalogCounterKey)
  room : H.overflowChecks = true → th.tableId.toNat + 1 ≠ 2 ^ 32

section Leads

variable {seen : List (system H u).Access} {t : H.Txn}

/-- What `createTable` is about to commit, and what it returns then. -/
theorem creating_of_leads {name : String} {columns : List ColumnDef} {pk : Nat}
    {next : Except (TxnError H.StoreError) Unit →
      StoreM H (Except (CatalogError H.StoreError) TableHandle)}
    (h : Leads (O := system H u) (Catalog.createTable name columns pk) seen
      (.call (.commit t) next)) :
    ∃ base th, Creating C u seen t base th ∧ Schema.new name columns pk = .ok th.schema ∧
      next (.ok ()) = .done (.ok th) := by
  unfold Catalog.createTable at h
  cases hkey : catalogTableKey name with
  | none =>
    rw [hkey] at h
    exact absurd h not_commit_of_done
  | some key =>
  rw [hkey] at h
  dsimp only at h
  cases hschema : Schema.new name columns pk with
  | error e =>
    rw [hschema] at h
    exact absurd h not_commit_of_done
  | ok schema =>
  obtain ⟨rfl, -, -⟩ := Schema.new_ok hschema
  rw [hschema] at h
  obtain ⟨base, seen₁, hseen, h₁⟩ := after_call h id
  obtain ⟨s₁, seen₂, -, h₂⟩ := after_call h₁ id
  simp only [StoreOp.perform, C.read_view, C.view_begin] at h₂
  cases hfresh : C.committed base key with
  | some v =>
    rw [hfresh] at h₂
    obtain ⟨s₂, seen₃, -, h₃⟩ := after_call h₂ id
    exact absurd h₃ not_commit_of_done
  | none =>
  rw [hfresh] at h₂
  obtain ⟨s₂, seen₃, -, h₃⟩ := after_call h₂ id
  simp only [StoreOp.perform, C.read_view, C.view_begin, Prog.bind] at h₃
  split at h₃
  · obtain ⟨s₃, seen₄, -, h₄⟩ := after_call h₃ id
    exact absurd h₄ not_commit_of_done
  next hroom =>
  obtain ⟨s₃, seen₄, -, h₄⟩ := after_call h₃ id
  obtain ⟨s₄, seen₅, -, h₅⟩ := after_call h₄ id
  obtain ⟨s₅, seen₆, -, h₆⟩ := after_call h₅ id
  have hindex : C.view (H.put (H.put (H.begin base).1 catalogCounterKey
      (le 4 (nextTableId (C.committed base catalogCounterKey) + 1).toNat)) key
      (encodeTableEntry (nextTableId (C.committed base catalogCounterKey)) schema))
      catalogIndexKey = C.committed base catalogIndexKey := by
    simp [(catalogTableKey_ne_index hkey).symm, catalogCounterKey_ne_index.symm]
  simp only [StoreOp.perform, C.read_view, hindex, Prog.bind] at h₆
  cases hnames : indexedNames (C.committed base catalogIndexKey) with
  | error e =>
    rw [hnames] at h₆
    obtain ⟨s₆, seen₇, -, h₇⟩ := after_call h₆ id
    exact absurd h₇ not_commit_of_done
  | ok names =>
  rw [hnames] at h₆
  obtain ⟨s₆, seen₇, -, h₇⟩ := after_call h₆ id
  rcases Leads.of_call h₇ with ⟨-, heq⟩ | ⟨s₇, rest, -, h₈⟩
  · cases heq
    refine ⟨base, ⟨nextTableId (C.committed base catalogCounterKey), schema⟩,
      ⟨⟨seen₁, hseen⟩, ⟨key, names, createTxn_of hkey hfresh hnames⟩, rfl, ?_⟩, rfl, rfl⟩
    intro hchecks hfull
    apply hroom
    rw [hchecks, hfull]
    rfl
  · refine absurd h₈ (IsQuiet.not_commit ?_)
    generalize (StoreOp.perform _ s₇).1 = r
    rcases r with (_ | _) | ⟨⟩ <;> trivial

/-- A call that creates a table. -/
def Call.Creates (u : Unicode) (c : Call) : Prop :=
  (∃ name columns pk, c = .createTable name columns pk) ∨
    ∃ name columns, c.statement u = some (.createTable name columns)

/-- A call that creates this table. -/
def Call.CreatesTable (u : Unicode) (c : Call) (table : String) : Prop :=
  (∃ columns pk, c = .createTable table columns pk) ∨
    ∃ columns, c.statement u = some (.createTable table columns)

def Call.creates (u : Unicode) : Call → Bool
  | createTable _ _ _ => true
  | c =>
    match c.statement u with
    | some (.createTable _ _) => true
    | _ => false

theorem Call.creates_iff {c : Call} : c.creates u = true ↔ c.Creates u := by
  have hstmt : ∀ stmt : Option Statement, (match stmt with
      | some (.createTable _ _) => true
      | _ => false) = true ↔ ∃ name columns, stmt = some (.createTable name columns) := by
    intro stmt
    constructor
    · intro h
      split at h
      · exact ⟨_, _, rfl⟩
      · cases h
    · rintro ⟨name, columns, rfl⟩
      rfl
  cases c with
  | createTable name columns pk => exact ⟨fun _ => .inl ⟨_, _, _, rfl⟩, fun _ => rfl⟩
  | execute | executeStatement =>
    rw [creates, hstmt]
    · exact ⟨.inr, fun h => h.elim (fun ⟨_, _, _, h⟩ => nomatch h) id⟩
    · exact nofun
  | _ => exact ⟨nofun, fun h => by rcases h with ⟨_, _, _, h⟩ | ⟨_, _, h⟩ <;> cases h⟩

/-- The schema that a CREATE TABLE asks for. -/
def Specifies (name : String) (columns : List ColumnSpec) (schema : Schema) : Prop :=
  ∃ pk, Session.primaryKeys columns = [pk] ∧
    Schema.new name (Session.columnDefs pk columns) pk = .ok schema

theorem Specifies.tableName {name : String} {columns : List ColumnSpec} {schema : Schema}
    (h : Specifies name columns schema) : schema.tableName = name := by
  obtain ⟨pk, -, hschema⟩ := h
  exact (Schema.new_ok hschema).1

/-- So does a CREATE TABLE. -/
theorem creating_statement {self : Session H} {name : String} {columns : List ColumnSpec}
    {next : Except (TxnError H.StoreError) Unit → StoreM H (Session.Reply H × Session H)}
    (h : Leads (O := system H u) (self.executeStatement u (.createTable name columns)) seen
      (.call (.commit t) next)) :
    ∃ base th, Creating C u seen t base th ∧ Specifies name columns th.schema := by
  obtain ⟨txn, failed⟩ := self
  cases txn with
  | some t' => exact absurd h not_commit_of_done
  | none =>
    rcases Leads.of_bind_call h with ⟨next', h₁, -⟩ | ⟨seen₁, seen₂, r, -, -, h₂⟩
    · unfold Session.createTable at h₁
      split at h₁
      next pk hpk =>
        simp only [Database.createTable, bind_pure_comp, bind_map_left] at h₁
        rcases Leads.of_bind_call h₁ with ⟨next'', h₃, -⟩ | ⟨seen₃, seen₄, r, -, -, h₄⟩
        · obtain ⟨base, th, hcreating, hschema, -⟩ := creating_of_leads (C := C) h₃
          exact ⟨base, th, hcreating, pk, hpk, hschema⟩
        · cases r <;> exact absurd h₄ not_commit_of_done
      · exact absurd h₁ not_commit_of_done
    · exact absurd h₂ not_commit_of_done

/-- What a call is about to commit that creates a table. -/
theorem creating_of_body {c : Call} {l : Local H} (hc : c.Creates u)
    {next : Except (TxnError H.StoreError) Unit → StoreM H (Reply H × Local H)}
    (h : Leads (O := system H u) (c.body u l) seen (.call (.commit t) next)) :
    ∃ base th, Creating C u seen t base th ∧ c.CreatesTable u th.schema.tableName ∧
      (∀ name columns pk, c = .createTable name columns pk →
        Schema.new name columns pk = .ok th.schema ∧
          next (.ok ()) = .done (.created (.ok th), l)) ∧
      ∀ name columns, c.statement u = some (.createTable name columns) →
        Specifies name columns th.schema := by
  rcases hc with ⟨name, columns, pk, rfl⟩ | ⟨name, columns, hstmt⟩
  · change Leads (O := system H u) ((_ <$> Catalog.createTable name columns pk) >>= _) _ _ at h
    rw [map_eq_pure_bind, bind_assoc] at h
    rcases Leads.of_bind_call h with ⟨next', h₁, rfl⟩ | ⟨seen₁, seen₂, r, -, -, h₂⟩
    · obtain ⟨base, th, hcreating, hschema, hnext⟩ := creating_of_leads (C := C) h₁
      have hname := (Schema.new_ok hschema).1
      refine ⟨base, th, hcreating, .inl ⟨columns, pk, by rw [hname]⟩,
        fun name' columns' pk' heq => ?_, nofun⟩
      cases heq
      refine ⟨hschema, ?_⟩
      dsimp only
      rw [hnext]
      rfl
    · exact absurd h₂ not_commit_of_done
  · cases l with
    | handle txn =>
      cases c with
      | execute sql => exact absurd h not_commit_of_done
      | executeStatement stmt => exact absurd h not_commit_of_done
      | _ => cases hstmt
    | session self =>
      rw [Call.body_statement self hstmt] at h
      rcases Leads.of_bind_call h with ⟨next', h₁, rfl⟩ | ⟨seen₁, seen₂, r, -, -, h₂⟩
      · obtain ⟨base, th, hcreating, hspec⟩ := creating_statement (C := C) h₁
        refine ⟨base, th, hcreating, .inr ⟨columns, by rw [hspec.tableName]; exact hstmt⟩, ?_,
          fun name' columns' hstmt' => ?_⟩
        · rintro name' columns' pk' rfl
          cases hstmt
        · rw [hstmt] at hstmt'
          cases hstmt'
          exact hspec
      · exact absurd h₂ not_commit_of_done

end Leads

/-- Where a creation returns a table, it has just committed it. -/
def ReturnsAt : (o : StoreOp H) →
    (o.Res → StoreM H (Except (CatalogError H.StoreError) TableHandle)) → Prop
  | .commit _, next => ∀ r th, next r = .done (.ok th) → r = .ok ()
  | _, next => ∀ r th, next r ≠ .done (.ok th)

theorem always_returnsAt (name : String) (columns : List ColumnDef) (pk : Nat) :
    (Catalog.createTable (H := H) name columns pk).Always (fun _ _ => True) ReturnsAt ∧
      ∀ th, Catalog.createTable (H := H) name columns pk ≠ .done (.ok th) := by
  unfold Catalog.createTable
  split
  · refine ⟨trivial, ?_⟩
    rintro th ⟨⟩
  split
  · refine ⟨trivial, ?_⟩
    rintro th ⟨⟩
  have habort : ∀ (t : H.Txn) (e : CatalogError H.StoreError),
      Prog.Always (fun _ _ => True) ReturnsAt
        (StoreM.abort t >>= fun _ => pure (.error e)) := by
    refine fun t e => ⟨?_, fun _ _ => trivial⟩
    rintro r th ⟨⟩
  refine ⟨⟨?_, fun t _ => ⟨?_, fun (r : Option Bytes) _ => ?_⟩⟩, ?_⟩
  · rintro r th ⟨⟩
  · rintro (_ | _) th ⟨⟩
  rotate_left
  · rintro th ⟨⟩
  cases r with
  | some v => exact habort t _
  | none =>
  refine ⟨fun (r : Option Bytes) th => ?_, fun (r : Option Bytes) _ => ?_⟩
  · simp only [Prog.bind]
    split <;> rintro ⟨⟩
  refine iteInduction (motive := fun p => Prog.Always _ _ p) (fun _ => habort t _) fun _ => ?_
  refine ⟨?_, fun t₁ _ => ⟨?_, fun t₂ _ => ⟨?_, fun (r : Option Bytes) _ => ?_⟩⟩⟩
  · rintro r th ⟨⟩
  · rintro r th ⟨⟩
  · intro (r : Option Bytes) th
    simp only [Prog.bind]
    split <;> rintro ⟨⟩
  simp only [Prog.bind]
  split
  · exact habort t₂ _
  refine ⟨?_, fun t₃ _ => ⟨?_, ?_⟩⟩
  · rintro r th ⟨⟩
  · rintro ((_ | _) | ⟨⟩) th h
    · cases h
    · cases h
    · rfl
  · rintro ((_ | _) | ⟨⟩) - <;> trivial

/-! ## The commits of everybody else -/

/-- An open transaction has written rows only. -/
def Local.WritesRows (C : H.Contract) : Local H → Prop
  | .session self => ∀ t, self.txn = some t → ∀ k, ¬ IsRowKey k → C.writes t k = none
  | .handle txn => ∀ t, txn = some t → ∀ k, ¬ IsRowKey k → C.writes t k = none

theorem LocalOk.writesRows {l : Local H} {s : H.Store} (h : LocalOk C P l s) : l.WritesRows C := by
  have htxn : ∀ {t : H.Txn}, TxnOk C P t s → ∀ k, ¬ IsRowKey k → C.writes t k = none := by
    intro t ht k hk
    by_contra hne
    exact hk (ht.rowKeys k hne)
  cases l with
  | session self => exact fun t ht => htxn (h t ht)
  | handle txn => exact fun t ht => htxn (h t ht)

/-- What a call commits that creates no table. -/
theorem Committing.writesRows {c : Call} {l : Local H} {seen : List (system H u).Access} {t : H.Txn}
    (h : Committing C u c l seen t) (hl : l.WritesRows C) (hc : ¬ c.Creates u) {k : Bytes}
    (hk : ¬ IsRowKey k) : C.writes t k = none := by
  cases h with
  | session hcall hlocal hseen =>
    subst hlocal
    exact hl t rfl k hk
  | autocommit hok hcall htable hlocal hseen hleads =>
    exact ((BegunOn.begin _).onStore (C := C) (RowM.looksUp_run htable) hleads).rowKeys k hk
  | handle hcall hlocal hseen =>
    subst hlocal
    exact hl t rfl k hk
  | create hcall hrows => exact absurd hcall hc

section Reachable

variable {ι : Type} [DecidableEq ι] {allow : Call → Local H → Prop} {s₀ : H.Store}
  {l₀ : ι → Local H} {g : (system H u).Config ι}

/-- What a client held when it made the call that an access belongs to. -/
theorem writesRows_of_reachable (hallow : ∀ c l, allow c l → c.Within P u) (hs₀ : Sound C P s₀)
    (hl₀ : ∀ i, (l₀ i).Idle) (hg : Reachable allow (start s₀ l₀) g) :
    (∀ i c l seen rest, (g.client i).thread = .busy c l seen rest → l.WritesRows C) ∧
      ∀ e ∈ g.log, e.start.WritesRows C := by
  induction hg with
  | refl => exact ⟨nofun, fun _ he => nomatch he⟩
  | @tail g g' hreach hstep ih =>
    have hgood := good_of_reachable hallow hs₀ hl₀ hreach
    cases hstep with
    | @call i past l c hi hen hal =>
      refine ⟨fun j c' l' seen rest hj => ?_, ih.2⟩
      by_cases hij : j = i
      · subst hij
        simp only [Function.update_self] at hj
        cases hj
        exact ((hgood.client j).idle l (by rw [hi])).2.writesRows
      · simp only [Function.update_of_ne hij] at hj
        exact ih.1 j c' l' seen rest hj
    | @access i past c l seen o next hi =>
      have hl := ih.1 i c l seen _ (by rw [hi])
      refine ⟨fun j c' l' seen rest hj => ?_, fun e he => ?_⟩
      · by_cases hij : j = i
        · subst hij
          simp only [Function.update_self] at hj
          cases hj
          exact hl
        · simp only [Function.update_of_ne hij] at hj
          exact ih.1 j c' l' seen rest hj
      · rcases List.mem_append.mp he with he | he
        · exact ih.2 e he
        · rw [List.mem_singleton.mp he]
          exact hl
    | @reply i past c l l' seen r hi =>
      refine ⟨fun j c' l' seen rest hj => ?_, ih.2⟩
      by_cases hij : j = i
      · subst hij
        simp only [Function.update_self] at hj
        cases hj
      · simp only [Function.update_of_ne hij] at hj
        exact ih.1 j c' l' seen rest hj

/-! ## The catalog of a log -/

theorem exists_of_forall₂ {α β : Type} {R : α → β → Prop} {l : List α} {l' : List β}
    (h : List.Forall₂ R l l') {b : β} (hb : b ∈ l') : ∃ a ∈ l, R a b := by
  induction h with
  | nil => cases hb
  | cons hab _ ih =>
    rcases List.mem_cons.mp hb with rfl | hb
    · exact ⟨_, List.mem_cons_self, hab⟩
    · obtain ⟨a, ha, hab⟩ := ih hb
      exact ⟨a, List.mem_cons_of_mem _ ha, hab⟩

/-- The call is for a table with this schema. -/
def Call.AsksFor (u : Unicode) (c : Call) (schema : Schema) : Prop :=
  (∃ name columns pk, c = .createTable name columns pk ∧ Schema.new name columns pk = .ok schema) ∨
    ∃ name columns, c.statement u = some (.createTable name columns) ∧
      Specifies name columns schema

/-- The accesses that committed a new table. -/
def creations (log : List ((system H u).Entry ι)) : List ((system H u).Entry ι) :=
  log.filter fun e => e.call.creates u && (committedTxn e.access).isSome

/-- With the access `e` its call has created the table, and has only to return the handle. -/
def Created (e : (system H u).Entry ι) (th : TableHandle) : Prop :=
  ∃ l, Leads (O := system H u) (e.call.body u e.start) (e.seen ++ [e.access])
    (.done (.created (.ok th), l))

/-- The access made this table. -/
structure Made (C : H.Contract) (e : (system H u).Entry ι) (th : TableHandle) : Prop where
  creating : ∃ t base, committedTxn e.access = some t ∧ Creating C u e.seen t base th
  created : ∀ name columns pk, e.call = .createTable name columns pk →
    Schema.new name columns pk = .ok th.schema ∧ Created e th
  specified : ∀ name columns, e.call.statement u = some (.createTable name columns) →
    Specifies name columns th.schema

/-- The tables that some accesses made, in order, are those of the catalog, with their ids. -/
structure Catalogued (C : H.Contract) (c : Contents Bytes Bytes)
    (es : List ((system H u).Entry ι)) (tables : List TableHandle) : Prop where
  made : List.Forall₂ (Made C) es tables
  catalog : CatalogOk c (tables.map (·.schema))
  ids : ∀ i th, tables[i]? = some th → th.tableId = UInt32.ofNat i

omit [DecidableEq ι] in
/-- The table is the one that has been asked for. -/
theorem Made.asksFor {e : (system H u).Entry ι} {th : TableHandle} (h : Made C e th)
    (hc : e.call.Creates u) : e.call.AsksFor u th.schema := by
  rcases hc with ⟨name, columns, pk, hcall⟩ | ⟨name, columns, hstmt⟩
  · exact .inl ⟨name, columns, pk, hcall, (h.created name columns pk hcall).1⟩
  · exact .inr ⟨name, columns, hstmt, h.specified name columns hstmt⟩

omit [DecidableEq ι] in
/-- The tables are those that have been asked for, in order. -/
theorem Catalogued.asked {c : Contents Bytes Bytes} {log : List ((system H u).Entry ι)}
    {tables : List TableHandle} (h : Catalogued C c (creations log) tables) :
    List.Forall₂ (fun e th => e.call.AsksFor u th.schema) (creations log) tables := by
  refine List.forall₂_iff_zip.mpr ⟨h.made.length_eq, fun {e th} hmem => ?_⟩
  have hcreates := (List.mem_filter.mp (List.of_mem_zip hmem).1).2
  exact ((List.forall₂_iff_zip.mp h.made).2 hmem).asksFor
    (Call.creates_iff.mp (Bool.and_eq_true_iff.mp hcreates).1)

/-- Each of them has been asked for by some call that is allowed. -/
theorem exists_asked (hlog : Logged allow s₀ l₀ g)
    {earlier later : List ((system H u).Entry ι)} (h : g.log = earlier ++ later)
    {tables : List TableHandle}
    (hasked : List.Forall₂ (fun e th => e.call.AsksFor u th.schema) (creations earlier) tables)
    {th : TableHandle} (hth : th ∈ tables) :
    ∃ c l, allow c l ∧ Call.AsksFor u c th.schema := by
  obtain ⟨e, he, hasks⟩ := exists_of_forall₂ hasked hth
  obtain ⟨before, after, hsplit⟩ := List.append_of_mem
    (h ▸ List.mem_append_left later (List.mem_filter.mp he).1 : e ∈ g.log)
  exact ⟨_, _, (hlog.entry before e after hsplit).allowed, hasks⟩

omit [DecidableEq ι] in
/-- A commit that leaves the catalog alone. -/
theorem Catalogued.congr {c c' : Contents Bytes Bytes} {es : List ((system H u).Entry ι)}
    {tables : List TableHandle} (h : Catalogued C c es tables)
    (hc : ∀ k, ¬ IsRowKey k → c' k = c k) : Catalogued C c' es tables :=
  ⟨h.made, h.catalog.congr hc, h.ids⟩

omit [DecidableEq ι] in
/-- The commit of a creation. -/
theorem Catalogued.concat {c c' : Contents Bytes Bytes} {es : List ((system H u).Entry ι)}
    {tables : List TableHandle} {e : (system H u).Entry ι} {th : TableHandle} {key : Bytes}
    {names : List String} (h : Catalogued C c es tables) (he : Made C e th)
    (hc : Creates c c' key th.schema names) (hid : th.tableId = nextTableId (c catalogCounterKey)) :
    Catalogued C c' (es ++ [e]) (tables ++ [th]) where
  made := List.rel_append h.made (.cons he .nil)
  catalog := by
    rw [List.map_append, List.map_singleton]
    exact h.catalog.create hc
  ids := by
    intro i th' hi
    rcases Nat.lt_or_ge i tables.length with hlt | hge
    · rw [List.getElem?_append_left hlt] at hi
      exact h.ids i th' hi
    · rw [List.getElem?_append_right hge, List.getElem?_singleton] at hi
      split at hi
      · cases hi
        have hcounter := h.catalog.counter
        rw [List.length_map] at hcounter
        rw [hid, hcounter]
        congr 1
        omega
      · cases hi

/-- The commit of a creation finds the catalog that its transaction began on, and makes the table. -/
theorem creates_of_entry (hlog : Logged allow s₀ l₀ g) (hgood : (protocol C P u).Good s₀ g)
    (hs₀ : Sound C P s₀) {earlier later : List ((system H u).Entry ι)} {e : (system H u).Entry ι}
    (h : g.log = earlier ++ e :: later) (hc : e.call.Creates u) {t : H.Txn}
    (ht : committedTxn e.access = some t)
    (happ : Appends (C.writes t) (C.history (replayLog s₀ earlier))
      (C.history (replayLog s₀ (earlier ++ [e]))))
    (hfree : ∀ k, C.writes t k ≠ none →
      ¬ WrittenSince (C.snapshot t) (C.history (replayLog s₀ earlier)) k) :
    ∃ th key names, Made C e th ∧
      Creates (C.committed (replayLog s₀ earlier)) (C.committed (replayLog s₀ (earlier ++ [e])))
        key th.schema names ∧
      th.tableId = nextTableId (C.committed (replayLog s₀ earlier) catalogCounterKey) := by
  have he := hlog.entry earlier e later h
  obtain ⟨next, hleads⟩ := he.leads
  obtain ⟨s, hacc⟩ := committedTxn_eq_some.mp ht
  have hbefore : s = replayLog s₀ earlier := by rw [← he.before, hacc]
  obtain ⟨who, past, call, l, seen, access⟩ := e
  subst hacc
  obtain ⟨base, th, hcreating, -, hcall, hstmt⟩ := creating_of_body (C := C) hc hleads
  obtain ⟨key, names, htxn⟩ := hcreating.txn
  -- Its transaction began on `base`, which clients have kept their promises since.
  have hrely : Rely C P base (replayLog s₀ earlier) := by
    obtain ⟨rest, hseen⟩ := hcreating.began
    dsimp only at hseen
    have hown := he.own
    rw [hseen] at hown
    obtain ⟨before, since, hb⟩ := exists_began hlog h hown
    obtain ⟨b, hb, -, hbegin⟩ := hb.log
    have horder := hgood.order
    rw [h, hb, List.append_assoc, List.pairwise_append] at horder
    have hrely := (List.pairwise_cons.mp horder.2.1).1 ⟨who, past, call, l, seen, _⟩
      (List.mem_append_right _ List.mem_cons_self)
    rw [hbegin, ← he.before] at *
    exact hrely
  have hsound : Sound C P (replayLog s₀ earlier) := by
    have hsince := (hgood.since _ (h ▸ List.mem_append_right _ List.mem_cons_self)).1
    rw [he.before] at hsince
    exact hsince.sound hs₀
  have hsame : ∀ k, ¬ IsRowKey k →
      C.committed (replayLog s₀ earlier) k = C.committed base k :=
    fun k hk => htxn.committed_eq hrely hsound hfree hk
  have hcreates := htxn.creates hsame
  have hnew : C.committed (replayLog s₀ (earlier ++ [⟨who, past, call, l, seen, _⟩])) =
      (C.writes t).apply (C.committed (replayLog s₀ earlier)) := happ.replay
  refine ⟨th, key, names, ⟨⟨t, base, ht, hcreating⟩, ?_, hstmt⟩, ?_, ?_⟩
  · rintro name columns pk rfl
    obtain ⟨hschema, hnext⟩ := hcall name columns pk rfl
    have hconcat := hleads.concat s
    have hres : ((system H u).perform (.commit t) s).1 = .ok () := he.res.symm
    rw [hres, hnext] at hconcat
    exact ⟨hschema, _, hconcat⟩
  · rw [hnew]
    exact hcreates
  · rw [hcreating.id, hsame _ not_isRowKey_catalogCounterKey]

/-- **The catalog is the list of the creations**, after every access. -/
theorem catalogued_replayLog (hlog : Logged allow s₀ l₀ g) (hgood : (protocol C P u).Good s₀ g)
    (hrows : ∀ e ∈ g.log, e.start.WritesRows C) (hs₀ : C.history s₀ = [])
    {earlier later : List ((system H u).Entry ι)} (h : g.log = earlier ++ later) :
    ∃ tables, Catalogued C (C.committed (replayLog s₀ earlier)) (creations earlier) tables := by
  induction earlier using List.reverseRecOn generalizing later with
  | nil =>
    refine ⟨[], .nil, ?_, fun i th hi => nomatch hi⟩
    have hempty : C.committed (replayLog s₀ ([] : List ((system H u).Entry ι))) = fun _ => none := by
      simp [Host.Contract.committed, replayLog, hs₀]
    rw [hempty]
    exact CatalogOk.empty
  | append_singleton earlier e ih =>
    have hsplit : g.log = earlier ++ e :: later := by simpa using h
    obtain ⟨tables, htables⟩ := ih hsplit
    have hcreations : creations (earlier ++ [e]) = creations earlier ++
        if e.call.creates u && (committedTxn e.access).isSome then [e] else [] := by
      rw [creations, List.filter_append, ← creations, List.filter_cons, List.filter_nil]
    rw [hcreations]
    rcases entry_cases hlog hgood hsplit with ⟨t, ht, hfree, happ⟩ | ⟨hnone, hsame⟩
    · by_cases hc : e.call.Creates u
      · rw [Call.creates_iff.mpr hc, ht]
        obtain ⟨th, key, names, hmade, hcreates, hid⟩ :=
          creates_of_entry hlog hgood (.of_nil C P hs₀) hsplit hc ht happ hfree
        exact ⟨tables ++ [th], htables.concat hmade hcreates hid⟩
      · rw [Bool.eq_false_iff.mpr fun hb => hc (Call.creates_iff.mp hb)]
        refine ⟨tables, ?_⟩
        rw [Bool.false_and, if_neg Bool.false_ne_true, List.append_nil]
        refine htables.congr fun k hk => ?_
        have hwrites := (committing_of_entry (C := C) hlog hsplit ht).writesRows
          (hrows e (hsplit ▸ List.mem_append_right _ List.mem_cons_self)) hc hk
        rw [Host.Contract.committed, happ.replay, Writes.apply_of_none hwrites]
        rfl
    · rw [hnone, Option.isSome_none, Bool.and_false, if_neg Bool.false_ne_true, List.append_nil]
      refine ⟨tables, ?_⟩
      rw [Host.Contract.committed, hsame]
      exact htables

end Reachable

/-! ## What the catalog answers -/

theorem CatalogOk.lookup {c : Contents Bytes Bytes} {ts : List Schema} (h : CatalogOk c ts) {i : Nat}
    {s : Schema} (hi : ts[i]? = some s) (hfits : s.FitsEntry) :
    lookupTable c s.tableName = .ok (some ⟨UInt32.ofNat i, s⟩) := by
  cases hk : catalogTableKey s.tableName with
  | none =>
    exact absurd (catalogTableKey_eq_none.mp hk) (h.named s (List.mem_of_getElem? hi))
  | some k =>
    exact lookupTable_eq_some.mpr ⟨k, _, hk, h.entry i s k hi hk, decodeTableEntry_encode _ hfits⟩

theorem CatalogOk.lookup_none {c : Contents Bytes Bytes} {ts : List Schema} (h : CatalogOk c ts)
    {name : String} (hname : name ∉ ts.map (·.tableName)) : lookupTable c name = .ok none := by
  unfold lookupTable
  cases hk : catalogTableKey name with
  | none => rfl
  | some k =>
    have hnone : c k = none := by
      by_contra hne
      exact hname (h.listed name k hk hne)
    dsimp only
    rw [hnone]

section Answers

variable {c : Contents Bytes Bytes} {tables : List TableHandle}

theorem CatalogOk.lookup_mem (h : CatalogOk c (tables.map (·.schema)))
    (hids : ∀ i th, tables[i]? = some th → th.tableId = UInt32.ofNat i)
    (hfits : ∀ th ∈ tables, th.schema.FitsEntry) {th : TableHandle} (hth : th ∈ tables) :
    lookupTable c th.schema.tableName = .ok (some th) := by
  obtain ⟨i, hi⟩ := List.mem_iff_getElem?.mp hth
  have hi' : (tables.map (·.schema))[i]? = some th.schema := by
    rw [List.getElem?_map, hi]
    rfl
  rw [h.lookup hi' (hfits th hth), ← hids i th hi]

/-- Every table is found under its name, and no other. -/
theorem CatalogOk.lookup_find? (h : CatalogOk c (tables.map (·.schema)))
    (hids : ∀ i th, tables[i]? = some th → th.tableId = UInt32.ofNat i)
    (hfits : ∀ th ∈ tables, th.schema.FitsEntry) (name : String) :
    lookupTable c name = .ok (tables.find? (·.schema.tableName == name)) := by
  cases hfind : tables.find? (·.schema.tableName == name) with
  | none =>
    refine h.lookup_none fun hname => ?_
    rw [List.map_map] at hname
    obtain ⟨th, hth, rfl⟩ := List.mem_map.mp hname
    have hne := List.find?_eq_none.mp hfind th hth
    exact hne (beq_self_eq_true _)
  | some th =>
    have hname := List.find?_some (p := fun th : TableHandle => th.schema.tableName == name) hfind
    obtain rfl := beq_iff_eq.mp hname
    exact h.lookup_mem hids hfits (List.mem_of_find?_eq_some hfind)

/-- Each of them is found. -/
theorem CatalogOk.lookup_all (h : CatalogOk c (tables.map (·.schema)))
    (hids : ∀ i th, tables[i]? = some th → th.tableId = UInt32.ofNat i)
    (hfits : ∀ th ∈ tables, th.schema.FitsEntry) :
    List.Forall₂ (fun name th => lookupTable c name = .ok (some th))
      (tables.map (·.schema.tableName)) tables := by
  rw [List.forall₂_map_left_iff, List.forall₂_same]
  exact fun th hth => h.lookup_mem hids hfits hth

/-- The index names them. -/
theorem CatalogOk.indexed (h : CatalogOk c (tables.map (·.schema)))
    (hfits : ∀ th ∈ tables, th.schema.FitsEntry) (hfew : tables.length < 2 ^ 32) :
    indexedNames (c catalogIndexKey) = .ok (tables.map (·.schema.tableName)) := by
  have hindex := h.index (fun s hs => ?_) (by rwa [List.length_map])
  · rwa [List.map_map] at hindex
  · obtain ⟨th, hth, rfl⟩ := List.mem_map.mp hs
    exact (hfits th hth).tableName

/-- They are what is listed. -/
theorem CatalogOk.listed_all {E : Type} {s : H.Store}
    (h : CatalogOk (C.committed s) (tables.map (·.schema)))
    (hids : ∀ i th, tables[i]? = some th → th.tableId = UInt32.ofNat i)
    (hfits : ∀ th ∈ tables, th.schema.FitsEntry) (hfew : tables.length < 2 ^ 32) :
    alone (Catalog.listTables (m := StoreM H) (E := E)) s = (.ok tables, s) := by
  have hget : H.get s = C.committed s := funext fun k => C.get_committed s k
  apply alone_listTables
  · rw [hget]
    exact h.indexed hfits hfew
  · rw [hget]
    exact h.lookup_all hids hfits

end Answers

/-! ## Concurrent creations -/

/-- Tables are created by `createTable` only, with names and column counts that fit their fields. -/
structure Call.CreatesDirectly (u : Unicode) (c : Call) : Prop where
  fits : c.FitsNames u
  direct : ∀ name columns, c.statement u ≠ some (.createTable name columns)

section Concurrent

variable {ι : Type} [DecidableEq ι] {s₀ : H.Store} {l₀ : ι → Local H} {g : (system H u).Config ι}

/-- A call of `createTable` that has returned a table has committed it last. -/
theorem exists_created {d : (system H u).Done} {name : String} {columns : List ColumnDef} {pk : Nat}
    (hcall : d.call = .createTable name columns pk) {th : TableHandle}
    (hreply : d.reply = .created (.ok th))
    (hleads : Leads (O := system H u) (d.call.body u d.start) d.seen (.done (d.reply, d.finish))) :
    ∃ before s t, d.seen = before ++ [⟨s, .commit t, .ok ()⟩] := by
  obtain ⟨call, start, seen, reply, finish⟩ := d
  cases hcall
  cases hreply
  change Leads (O := system H u) ((_ <$> Catalog.createTable name columns pk) >>= _) _ _ at hleads
  rw [map_eq_pure_bind, bind_assoc] at hleads
  obtain ⟨seen₁, seen₂, r, rfl, h₁, h₂⟩ := Leads.of_bind_done hleads
  obtain ⟨rfl, hr⟩ := h₂.of_done
  obtain rfl : r = .ok th := by
    cases r with
    | error e => cases hr
    | ok th' =>
      cases hr
      rfl
  obtain ⟨halways, hnot⟩ := always_returnsAt (H := H) name columns pk
  rcases List.eq_nil_or_concat seen₁ with rfl | ⟨before, a, rfl⟩
  · exact absurd h₁.of_nil (hnot th)
  · rw [List.concat_eq_append] at h₁ ⊢
    obtain ⟨next, hnext, hlast⟩ := h₁.split
    have hreturns := (hnext.always (fun _ _ => trivial) halways).1
    have hdone := hlast.of_nil
    obtain ⟨s, o, res⟩ := a
    cases o with
    | commit t =>
      cases hreturns res th hdone
      exact ⟨before, s, t, List.append_nil _⟩
    | _ => exact absurd hdone (hreturns res th)

/-- An access that commits nothing leaves every key of the store as it is. -/
theorem get_of_not_committed (C : H.Contract) {a : (system H u).Access}
    (hres : a.res = ((system H u).perform a.op a.before).1)
    (hsnap : ∀ t, a.op = .commit t → C.snapshot t <+: C.history a.before)
    (hnone : committedTxn a = none) (k : Bytes) :
    H.get (a.op.perform a.before).2 k = H.get a.before k := by
  rcases access_cases hres hsnap with ⟨t, ht, -⟩ | ⟨-, hsame⟩
  · rw [hnone] at ht
    cases ht
  · rw [C.get_eq, C.get_eq]
    exact congrFun (congrArg replay hsame) k

/-- **Concurrent creations never corrupt the catalog.** Any number of clients of an empty database
create tables, and do anything else, in any interleaving; fewer than 2^32 creations succeed, with
names and columns that fit the fields of a catalog entry. Then after every step the successful
creations have made the tables `tables`, in the order of their commits: these have the ids 0, 1, 2
and so on, and different names; they are what is listed, what is found by name, and as many as the
counter says. A creation that returns a table is one of them, and one that returns an error has left
the store as it was with each of its accesses. -/
theorem concurrent_creations {allow : Call → Local H → Prop}
    (hallow : ∀ c l, allow c l → c.CreatesDirectly u) (C : H.Contract) (hs₀ : C.history s₀ = [])
    (hl₀ : ∀ i, (l₀ i).Idle) (hg : Reachable allow (start s₀ l₀) g)
    (hfew : (creations g.log).length < 2 ^ 32) :
    ∃ tables : List TableHandle, List.Forall₂ Created (creations g.log) tables ∧
      (∀ (i : ℕ) (th : TableHandle), tables[i]? = some th → th.tableId.toNat = i) ∧
      (tables.map (·.schema.tableName)).Nodup ∧
      (alone Catalog.listTables g.shared).1 = (.ok tables : Except (CatalogError H.StoreError) _) ∧
      (∀ name, (alone (Catalog.getTable name) g.shared).1 =
        (.ok (tables.find? (·.schema.tableName == name)) : Except (CatalogError H.StoreError) _)) ∧
      (nextTableId (H.get g.shared catalogCounterKey)).toNat = tables.length ∧
      ∀ i, ∀ d ∈ (g.client i).past, ∀ name columns pk, d.call = .createTable name columns pk →
        (∀ th, d.reply = .created (.ok th) → ∃ e ∈ creations g.log, e.who = i ∧
          d.seen = e.seen ++ [e.access] ∧ e.call = d.call ∧ Created e th) ∧
        ∀ e, d.reply = .created (.error e) → ∀ a ∈ d.seen, ∀ k,
          H.get (a.op.perform a.before).2 k = H.get a.before k := by
  have hwithin : ∀ c l, allow c l → c.Within ⟨False, True⟩ u :=
    fun c l hc => ⟨False.elim, fun _ => (hallow c l hc).fits⟩
  have hempty : Sound C ⟨False, True⟩ s₀ := .of_nil C _ hs₀
  have hlog := hg.logged
  have hgood := good_of_reachable hwithin hempty hl₀ hg
  obtain ⟨tables, htables⟩ := catalogued_replayLog hlog hgood
    (writesRows_of_reachable hwithin hempty hl₀ hg).2 hs₀ (List.append_nil g.log).symm
  rw [← hlog.shared] at htables
  have hlen : tables.length < 2 ^ 32 := htables.made.length_eq ▸ hfew
  -- Every creation is a call of `createTable`, with names that fit.
  have hdirect : ∀ e ∈ creations g.log, ∃ name columns pk, e.call = .createTable name columns pk ∧
      FitsTable name (columns.map (·.name)) := by
    intro e he
    obtain ⟨hmem, hcreates⟩ := List.mem_filter.mp he
    obtain ⟨earlier, later, hsplit⟩ := List.append_of_mem hmem
    have hallowed := hallow _ _ (hlog.entry earlier e later hsplit).allowed
    rcases Call.creates_iff.mp (Bool.and_eq_true_iff.mp hcreates).1 with
      ⟨name, columns, pk, hcall⟩ | ⟨name, columns, hstmt⟩
    · exact ⟨name, columns, pk, hcall, (hcall ▸ hallowed.fits :)⟩
    · exact absurd hstmt (hallowed.direct name columns)
  have hmade : List.Forall₂ (fun th e => th.schema.FitsEntry ∧ Created e th) tables
      (creations g.log) := by
    refine List.Forall₂.flip (List.forall₂_iff_zip.mpr ⟨htables.made.length_eq, ?_⟩)
    intro e th hmem
    obtain ⟨name, columns, pk, hcall, hname, hcols, hlen⟩ := hdirect e (List.of_mem_zip hmem).1
    obtain ⟨hschema, hcreated⟩ :=
      ((List.forall₂_iff_zip.mp htables.made).2 hmem).created name columns pk hcall
    obtain ⟨hname', hcols', -⟩ := Schema.new_ok hschema
    refine ⟨⟨?_, ?_, ?_⟩, hcreated⟩
    · exact hname' ▸ hname
    · intro c hc
      exact hcols _ (List.mem_map_of_mem (hcols' ▸ hc))
    · rw [hcols']
      simpa using hlen
  obtain ⟨hfits, hcreated⟩ := (List.forall₂_and_left _ _).mp hmade
  have hget : H.get g.shared = C.committed g.shared := funext fun k => C.get_committed g.shared k
  refine ⟨tables, hcreated.flip, ?_, ?_, ?_, ?_, ?_, ?_⟩
  · intro i th hi
    have hilt := (List.getElem?_eq_some_iff.mp hi).1
    rw [htables.ids i th hi, UInt32.toNat_ofNat_of_lt' (by simp only [UInt32.size]; omega)]
  · have hnodup := htables.catalog.nodup
    rwa [List.map_map] at hnodup
  · rw [htables.catalog.listed_all htables.ids hfits hlen]
  · intro name
    rw [alone_getTable, hget, htables.catalog.lookup_find? htables.ids hfits]
    rfl
  · rw [hget, htables.catalog.counter, List.length_map,
      UInt32.toNat_ofNat_of_lt' (by simp only [UInt32.size]; omega)]
  · intro i d hd name columns pk hcall
    obtain ⟨l, hrem⟩ := Remembers.of_client hlog i
    have hreturned := hrem.returned d hd
    have hrecorded := (hg.recorded i).1 d hd
    refine ⟨fun th hreply => ?_, fun e hreply a ha k => ?_⟩
    · obtain ⟨before, s, t, hseen⟩ := exists_created hcall hreply hreturned.leads
      obtain ⟨e, he, hwho, hecall, hestart, heseen, haccess⟩ := hrecorded before _ [] hseen
      have hlast : d.seen = e.seen ++ [e.access] := by rw [hseen, heseen, haccess]
      refine ⟨e, List.mem_filter.mpr ⟨he, ?_⟩, hwho, hlast, hecall, d.finish, ?_⟩
      · rw [hecall, hcall, haccess]
        rfl
      · rw [hecall, hestart, ← hlast, ← hreply]
        exact hreturned.leads
    · obtain ⟨before, after, hseen⟩ := List.append_of_mem ha
      obtain ⟨e', he', -, -, -, -, haccess⟩ := hrecorded before a after hseen
      have hnone := not_committed_of_isError C hreturned (by rw [hreply]; rfl) a ha
      refine get_of_not_committed C (hreturned.leads.res_eq a ha) (fun t ht => ?_) hnone k
      have haccessOk := hgood.log e' he'
      rw [haccess] at haccessOk
      exact (haccessOk t ht).snapshot

end Concurrent

/-- Two creations of one table, and one of another. -/
def creatingCalls : List (ℕ × Call) :=
  [(0, .createTable "a" [⟨"k", .integer, false⟩] 0), (1, .createTable "a" [⟨"k", .text, false⟩] 0),
    (1, .createTable "b" [⟨"k", .integer, false⟩] 0)]

theorem concurrent_creations_sample : ∃ tables, tables.length = 2 ∧
    (alone (H := Reference.host true) Catalog.listTables (sampleRun creatingCalls).shared).1 =
      (.ok tables : Except (CatalogError Empty) _) := by
  have hg : Reachable (fun (c : Call) _ => c.CreatesDirectly Unicode.ascii)
      (start ([] : List Reference.WriteList) newSessions) (sampleRun creatingCalls) := by
    refine reachable_sampleRun fun c hc _ => ?_
    simp only [creatingCalls, List.mem_cons, List.not_mem_nil, or_false] at hc
    rcases hc with rfl | rfl | rfl <;>
      refine ⟨⟨by decide, List.forall_mem_singleton.mpr (by decide), by decide⟩, ?_⟩ <;>
      rintro name columns ⟨⟩
  have hcreations : (creations (sampleRun creatingCalls).log).length = 2 := by decide +kernel
  have hempty : (Reference.contract true).history ([] : List Reference.WriteList) = [] := rfl
  obtain ⟨tables, hmade, -, -, hlist, -⟩ := concurrent_creations (fun _ _ h => h)
    (Reference.contract true) hempty idle_newSessions hg (by rw [hcreations]; decide)
  exact ⟨tables, by rw [← hmade.length_eq, hcreations], hlist⟩

end Choam
