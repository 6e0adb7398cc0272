import Choam.Verify.Memory
import Choam.Verify.Script
import Choam.Verify.Describe
import Choam.Cli.Output

/-!
# The catalog from its description

What `.schema` prints of all tables is a script for them: put behind CREATE TABLE, with semicolons,
and executed in an empty database, it makes the same tables again, with the same ids
(`catalog_restored`).
-/

namespace Choam

open ByteString Interleave Overlay

variable {H : Host} {C : H.Contract} {u : Unicode}

/-- The statement that a table is described by. -/
def TableHandle.statement (th : TableHandle) : Statement :=
  .createTable th.schema.tableName th.schema.columnSpecs

/-- The text of CREATE TABLE and the description, for each table. -/
def creationScript (hs : List TableHandle) : String :=
  scriptText (hs.map fun th => "CREATE TABLE " ++ describe th)

/-- The schema is that of a CREATE TABLE that can be read, with names that fit. -/
def Schema.Spelled (u : Unicode) (schema : Schema) : Prop :=
  ∃ name columns, Specifies name columns schema ∧
    (Statement.createTable name columns).WellFormed u ∧ FitsTable name (columns.map (·.name))

theorem specifies_statement (th : TableHandle) :
    Specifies th.schema.tableName th.schema.columnSpecs th.schema := by
  refine ⟨th.schema.primaryKey, primaryKeys_columnSpecs _, ?_⟩
  rw [columnDefs_columnSpecs]
  exact th.schema.new_self

namespace Schema.Spelled

variable {schema : Schema}

/-- The statement that the table is described by can be read. -/
theorem wellFormed (h : schema.Spelled u) :
    (Statement.createTable schema.tableName schema.columnSpecs).WellFormed u := by
  obtain ⟨name, columns, hspec, hwf, -⟩ := h
  exact hspec.wellFormed hwf

theorem fits (h : schema.Spelled u) :
    FitsTable schema.tableName (schema.columnSpecs.map (·.name)) := by
  obtain ⟨name, columns, hspec, -, hfits⟩ := h
  rw [columnSpecs_names, hspec.names, hspec.tableName]
  exact hfits

theorem ne_empty (h : schema.Spelled u) : schema.tableName ≠ "" := by
  obtain ⟨⟨⟨c, cs, hlist, -⟩, -⟩, -⟩ := h.wellFormed
  intro hname
  rw [hname] at hlist
  cases hlist

end Schema.Spelled

/-! ## Executing the script -/

/-- The statements of some tables, executed behind those of the others, make the same tables. -/
theorem executeStatements_creations {H₀ : Host} {C₀ : H₀.Contract} {s₀ : H₀.Store}
    (haccepts : H.Accepts) {hs₁ hs₂ : List TableHandle} (h₀ : Lists C₀ s₀ (hs₁ ++ hs₂))
    (hspelled : ∀ th ∈ hs₂, th.schema.Spelled u) {s : H.Store} (hl : Lists C s hs₁) :
    ∃ s', ((Session.new : Session H).executeStatements u (hs₂.map (·.statement))).run
        StoreOp.perform s = ((.ok (hs₂.map fun _ => .default), .new), s') ∧
      Lists C s' (hs₁ ++ hs₂) := by
  induction hs₂ generalizing hs₁ s with
  | nil =>
    rw [List.append_nil]
    exact ⟨s, rfl, hl⟩
  | cons th hs₂ ih =>
    obtain ⟨hth, hrest⟩ := List.forall_mem_cons.mp hspelled
    have hlen := h₀.few
    rw [List.length_append, List.length_cons] at hlen
    have hid : th.tableId = UInt32.ofNat hs₁.length := h₀.ids _ th (by simp)
    have hnew : th.schema.tableName ∉ (hs₁.map (·.schema)).map (·.tableName) := by
      have hnodup := h₀.catalog.nodup
      rw [List.map_append, List.map_append, List.nodup_append] at hnodup
      intro hmem
      exact hnodup.2.2 _ hmem _ (List.mem_cons_self) rfl
    obtain ⟨s', hrun, hl', -⟩ := hl.create haccepts (by omega) (specifies_statement th) hth.ne_empty
      hnew hth.fits
    rw [← hid] at hl'
    have hone : ((Session.new : Session H).executeStatement u th.statement).run StoreOp.perform s =
        ((.ok .default, .new), s') := by
      change (Session.createTable _ _ >>= _).run StoreOp.perform s = _
      rw [Prog.run_bind, hrun]
      rfl
    rw [List.append_cons] at h₀ ⊢
    obtain ⟨s'', hrun', hl''⟩ := ih h₀ hrest hl'
    refine ⟨s'', ?_, hl''⟩
    rw [List.map_cons, Session.executeStatements, Prog.run_bind, hone]
    dsimp only
    rw [Prog.run_bind, hrun']
    rfl

/-- Where the script of the tables is executed in an empty database, it makes just these tables. -/
def Restores (u : Unicode) (hs : List TableHandle) : Prop :=
  ∀ (H : Host) (C : H.Contract) (s : H.Store), C.history s = [] → H.Accepts →
    ∃ s', (Session.new.executeScript u (creationScript hs)).run StoreOp.perform s =
        ((.ok (hs.map fun _ => .default), .new), s') ∧
      (alone Catalog.listTables s').1 = (.ok hs : Except (CatalogError H.StoreError) _) ∧
      ∀ name, (alone (Catalog.getTable name) s').1 =
        (.ok (hs.find? (·.schema.tableName == name)) : Except (CatalogError H.StoreError) _)

/-- A listed table is found by its name, and no other. -/
theorem Lists.getTable {s : H.Store} {hs : List TableHandle} (hl : Lists C s hs) (name : String) :
    (alone (Catalog.getTable name) s).1 =
      (.ok (hs.find? (·.schema.tableName == name)) : Except (CatalogError H.StoreError) _) := by
  rw [alone_getTable]
  have hget : H.get s = C.committed s := funext fun k => C.get_committed s k
  rw [hget, hl.lookup]
  rfl

theorem Lists.restores (hu : u.Lawful) {s : H.Store} {hs : List TableHandle} (hl : Lists C s hs)
    (hspelled : ∀ th ∈ hs, th.schema.Spelled u) : Restores u hs := by
  intro H' C' s' hempty haccepts
  have htext : creationScript hs = scriptText ((hs.map (·.statement)).map Statement.display) := by
    rw [creationScript, List.map_map]
    exact congrArg scriptText (List.map_congr_left fun th _ => create_describe th)
  have hparse : parseScript u (creationScript hs) = .ok (hs.map (·.statement)) := by
    rw [htext]
    refine parseScript_scriptText hu (List.forall_mem_map.mpr fun th hth => ?_)
    exact (hspelled th hth).wellFormed
  obtain ⟨s'', hrun, hl''⟩ :=
    executeStatements_creations haccepts hl hspelled (Lists.empty (C := C') hempty)
  rw [List.nil_append] at hl''
  refine ⟨s'', ?_, ?_, fun name => hl''.getTable name⟩
  · rw [Session.executeScript, hparse]
    exact hrun
  · rw [hl''.catalog.listed_all hl''.ids hl''.fits hl''.few]

/-! ## In any run -/

/-- Tables are created by statements that can be read, with names and a number of columns that fit
the fields of a catalog entry. -/
structure Call.CreatesReadably (u : Unicode) (c : Call) : Prop where
  fits : c.FitsNames u
  sql : ∀ name columns pk, c ≠ .createTable name columns pk
  wellFormed : ∀ stmt, c = .executeStatement stmt → stmt.WellFormed u

theorem Call.CreatesReadably.spelled {c : Call} (h : c.CreatesReadably u) {name : String}
    {columns : List ColumnSpec} (hstmt : c.statement u = some (.createTable name columns))
    {schema : Schema} (hspec : Specifies name columns schema) : schema.Spelled u := by
  cases c with
  | execute sql =>
    have hparse : parse u sql = .ok (.createTable name columns) := by
      cases hp : parse u sql with
      | error e =>
        rw [Call.statement, hp] at hstmt
        cases hstmt
      | ok stmt =>
        rw [Call.statement, hp] at hstmt
        cases hstmt
        rfl
    have hwf := wellFormed_of_parseScript (parse_eq_ok.mp hparse) _ List.mem_cons_self
    exact ⟨name, columns, hspec, hwf, h.fits _ hstmt⟩
  | executeStatement stmt =>
    cases hstmt
    exact ⟨name, columns, hspec, h.wellFormed _ rfl, h.fits _ rfl⟩
  | _ => cases hstmt

section Reachable

variable {ι : Type} [DecidableEq ι] {s₀ : H.Store} {l₀ : ι → Local H} {g : (system H u).Config ι}
  {allow : Call → Local H → Prop} {P : Promises}

/-- The tables of a log are those of statements that can be read. -/
theorem spelled_of_asked (hallow : ∀ c l, allow c l → c.CreatesReadably u)
    (hlog : Logged allow s₀ l₀ g) {tables : List TableHandle}
    (hasked : List.Forall₂ (fun e th => e.call.AsksFor u th.schema) (creations g.log) tables) :
    ∀ th ∈ tables, th.schema.Spelled u := by
  intro th hth
  obtain ⟨c, l, hc, hasks⟩ := exists_asked hlog (List.append_nil g.log).symm hasked hth
  have hreadable := hallow c l hc
  rcases hasks with ⟨name, columns, pk, hcall, -⟩ | ⟨name, columns, hstmt, hspec⟩
  · exact absurd hcall (hreadable.sql name columns pk)
  · exact hreadable.spelled hstmt hspec

variable {x : Texts H.StoreError}

theorem splitWhitespace_schema (hu : u.Lawful) :
    Shell.splitWhitespace u ".schema".toList = [".schema"] := by
  have hrange : (".schema".toList.all fun c => decide (33 ≤ c.toNat ∧ c.toNat ≤ 126)) = true := rfl
  have hplain : ∀ c ∈ ".schema".toList, u.isWhitespace c = false := by
    intro c hc
    obtain ⟨hlow, hhigh⟩ := of_decide_eq_true (List.all_eq_true.mp hrange c hc)
    exact hu.graphic c hlow hhigh
  rw [Shell.splitWhitespace, List.splitOnP_eq_singleton hplain]
  rfl

/-- **The description of a catalog restores it.** In every state that any number of clients of an
empty database reach, in any interleaving, where tables are created by CREATE TABLE statements that
can be read: `.schema` prints the descriptions of the tables that are listed, in the order of their
creation, and CREATE TABLE in front of each makes a script that makes the same tables in any empty
database whose store accepts the commits, with the same ids. -/
theorem catalog_restored (hu : u.Lawful) (C : H.Contract)
    (hallow : ∀ c l, allow c l → c.CreatesReadably u) (hs₀ : C.history s₀ = [])
    (hl₀ : ∀ i, (l₀ i).Idle) (hg : Reachable allow (start s₀ l₀) g)
    (hfew : (creations g.log).length < 2 ^ 32) :
    ∃ hs : List TableHandle,
      List.Forall₂ (fun e th => e.call.AsksFor u th.schema) (creations g.log) hs ∧
      (alone Catalog.listTables g.shared).1 = (.ok hs : Except (CatalogError H.StoreError) _) ∧
      (∀ name, (alone (Catalog.getTable name) g.shared).1 =
        (.ok (hs.find? (·.schema.tableName == name)) : Except (CatalogError H.StoreError) _)) ∧
      (∀ c : Console H, (Shell.dotPrinted u x ".schema" c).run StoreOp.perform g.shared =
        (((true, false), c.printAll (hs.map (describe · ++ "\n"))), g.shared)) ∧
      Restores u hs := by
  have hwithin : ∀ c l, allow c l → c.Within unpromised u := fun c _ _ => within_unpromised c
  have hempty : Sound C unpromised s₀ := .of_nil C _ hs₀
  have hlog := hg.logged
  have hgood := good_of_reachable hwithin hempty hl₀ hg
  obtain ⟨hs, htables⟩ := catalogued_replayLog hlog hgood
    (writesRows_of_reachable hwithin hempty hl₀ hg).2 hs₀ (List.append_nil g.log).symm
  rw [← hlog.shared] at htables
  have hspelled := spelled_of_asked hallow hlog htables.asked
  have hl : Lists C g.shared hs := by
    refine ⟨htables.catalog, htables.ids, fun th hth => ?_, htables.made.length_eq ▸ hfew⟩
    obtain ⟨name, columns, hspec, -, hfits⟩ := hspelled th hth
    exact hspec.fitsEntry hfits
  have hlisted {E : Type} : alone (Catalog.listTables (m := StoreM H) (E := E)) g.shared =
      (.ok hs, g.shared) := hl.catalog.listed_all hl.ids hl.fits hl.few
  refine ⟨hs, htables.asked, by rw [hlisted], fun name => hl.getTable name, fun c => ?_,
    hl.restores hu hspelled⟩
  have hdatabase : ((Database.listTables (m := StoreM H) (E := H.StoreError)).run).run
      StoreOp.perform g.shared = (.ok hs, g.shared) := by
    rw [Database.listTables, ExceptT.run_adapt, Prog.run_map]
    have := hlisted (E := H.StoreError)
    unfold alone at this
    rw [this]
    rfl
  unfold Shell.dotPrinted
  rw [splitWhitespace_schema hu]
  change (((Database.listTables (m := StoreM H) (E := H.StoreError)).run) >>= _).run
    StoreOp.perform g.shared = _
  rw [Prog.run_bind, hdatabase]
  rfl

end Reachable

/-- Two tables, created by two clients. -/
def cataloguedCalls : List (ℕ × Call) :=
  [(1, .execute "create table b (v TEXT NOT NULL, k INTEGER NOT NULL PRIMARY KEY)"),
    (0, .execute "CREATE TABLE a (k TEXT PRIMARY KEY)")]

theorem catalog_restored_sample : ∃ hs : List TableHandle, hs.length = 2 ∧
    (alone (H := Reference.host true) Catalog.listTables (sampleRun cataloguedCalls).shared).1 =
      (.ok hs : Except (CatalogError Empty) _) ∧
    (∀ name, (alone (H := Reference.host true) (Catalog.getTable name)
        (sampleRun cataloguedCalls).shared).1 =
      (.ok (hs.find? (·.schema.tableName == name)) : Except (CatalogError Empty) _)) ∧
    (∀ c : Console (Reference.host true), (Shell.dotPrinted .ascii .plain ".schema" c).run
        StoreOp.perform (sampleRun cataloguedCalls).shared =
      (((true, false), c.printAll (hs.map (describe · ++ "\n"))),
        (sampleRun cataloguedCalls).shared)) ∧
    Restores .ascii hs := by
  have hg : Reachable (fun (c : Call) _ => c.CreatesReadably .ascii)
      (start ([] : List Reference.WriteList) newSessions) (sampleRun cataloguedCalls) := by
    refine reachable_sampleRun fun c hc _ => ?_
    simp only [cataloguedCalls, List.mem_cons, List.not_mem_nil, or_false] at hc
    rcases hc with rfl | rfl
    · refine ⟨fun stmt hstmt => ?_, fun _ _ _ h => (by cases h), fun _ h => (by cases h)⟩
      rw [Call.statement, (by decide +kernel : parse .ascii _ = .ok (.createTable "b"
        [⟨"v", .text, false, true⟩, ⟨"k", .integer, true, true⟩]))] at hstmt
      cases hstmt
      exact ⟨by decide, by decide, by decide⟩
    · refine ⟨fun stmt hstmt => ?_, fun _ _ _ h => (by cases h), fun _ h => (by cases h)⟩
      rw [Call.statement, (by decide +kernel : parse .ascii _ = .ok (.createTable "a"
        [⟨"k", .text, true, false⟩]))] at hstmt
      cases hstmt
      exact ⟨by decide, by decide, by decide⟩
  have hcreations : (creations (sampleRun cataloguedCalls).log).length = 2 := by decide +kernel
  obtain ⟨hs, hasked, hlisted, hfound, hprinted, hrestores⟩ := catalog_restored (x := .plain)
    Unicode.lawful_ascii (Reference.contract true) (fun c l h => h) rfl idle_newSessions hg
    (by rw [hcreations]; decide)
  exact ⟨hs, hasked.length_eq.symm.trans hcreations, hlisted, hfound, hprinted, hrestores⟩

end Choam
