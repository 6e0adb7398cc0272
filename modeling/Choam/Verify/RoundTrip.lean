import Choam.Verify.Lexing
import Choam.Verify.Recognise

/-!
# Parsing inverts rendering

`Shown u A cs a` says that the characters `cs` are read as an `A` that means `a`: they are read as
tokens that some derivation yields. It follows the grammar, as the rendering does, so the text of a
statement is read as a derivation of that statement, and the parser finds it.
-/

namespace Choam

open Choam.Parser Choam.Grammar

/-! ## Well-formed statements -/

/-- A name that can stand in a statement. -/
def IsIdent (u : Unicode) (name : String) : Prop := IsWord u name ∧ isKeyword name = false

def Literal.WellFormed : Literal → Prop
  | integer n => 0 ≤ n
  | _ => True

def Expr.WellFormed (u : Unicode) : Expr → Prop
  | literal l => l.WellFormed
  | column name => IsIdent u name
  | unary _ e => e.WellFormed u
  | binary l _ r => l.WellFormed u ∧ r.WellFormed u
  | isNull e _ => e.WellFormed u

/-- A list with a first item, all of whose items satisfy `P`. -/
def AllOf {α : Type} (P : α → Prop) (l : List α) : Prop := l ≠ [] ∧ ∀ a ∈ l, P a

def Projection.WellFormed (u : Unicode) : Projection → Prop
  | all => True
  | columns names => AllOf (IsIdent u) names

def Statement.WellFormed (u : Unicode) : Statement → Prop
  | createTable name columns => IsIdent u name ∧ AllOf (fun c => IsIdent u c.name) columns
  | insert table columns rows => IsIdent u table ∧ (∀ names ∈ columns, AllOf (IsIdent u) names) ∧
      AllOf (AllOf (Expr.WellFormed u)) rows
  | select projection table filter orderBy limit => projection.WellFormed u ∧ IsIdent u table ∧
      (∀ e ∈ filter, e.WellFormed u) ∧ (∀ o ∈ orderBy, IsIdent u o.column) ∧
      ∀ n ∈ limit, n.toNat < 2 ^ 63
  | update table assignments filter => IsIdent u table ∧
      AllOf (fun a => IsIdent u a.1 ∧ a.2.WellFormed u) assignments ∧
      ∀ e ∈ filter, e.WellFormed u
  | delete table filter => IsIdent u table ∧ ∀ e ∈ filter, e.WellFormed u
  | begin | commit | rollback => True

/-! ## Text as a derivation -/

variable {u : Unicode} {α β : Type}

def Shown (u : Unicode) (A : Phrase Token α) (cs : List Char) (a : α) : Prop :=
  ∃ d, A.value d = a ∧ Spells u cs (A.yield d)

theorem Shown.bind {A : Phrase Token α} {B : α → Phrase Token β} {cs cs' : List Char} {a : α}
    {b : β} (h : Shown u A cs a) (h' : Shown u (B a) cs' b) (hcs' : Apart cs') :
    Shown u (A >>= B) (cs ++ cs') b := by
  obtain ⟨d, rfl, hd⟩ := h
  obtain ⟨e, rfl, he⟩ := h'
  exact ⟨⟨d, e⟩, rfl, hd.append he hcs'⟩

theorem Shown.of_eq {A : Phrase Token α} {cs cs' : List Char} {a : α} (h : Shown u A cs a)
    (heq : cs' = cs) : Shown u A cs' a :=
  heq ▸ h

theorem shown_pure (a : α) : Shown u (pure a) [] a := ⟨(), rfl, spells_nil⟩

theorem Shown.space (hu : u.Lawful) {A : Phrase Token α} {cs : List Char} {a : α}
    (h : Shown u A cs a) : Shown u A (' ' :: cs) a := by
  obtain ⟨d, hd, hs⟩ := h
  exact ⟨d, hd, hs.space hu⟩

/-- A bracket or another single character in front. -/
theorem Shown.symbol (hu : u.Lawful) {B : Unit → Phrase Token β} {cs : List Char} {b : β}
    {c : Char} {tok : Token} (hc : punctuation c = some tok) (h : Shown u (B ()) cs b) :
    Shown u (Grammar.symbol tok >>= B) (c :: cs) b := by
  obtain ⟨e, he, hs⟩ := h
  exact ⟨⟨⟨tok, only?_isSome.mpr rfl⟩, e⟩, he, hs.cons hu hc⟩

theorem shown_keyword (hu : u.Lawful) (kw : String) (hne : kw.toList ≠ [])
    (h : asciiAlpha kw = true) :
    Shown u (keyword kw) kw.toList () := by
  have hkw : (word? kw (.word kw)).isSome := word?_isSome.mpr ⟨kw, rfl, by simp [eqIgnoreAsciiCase]⟩
  exact ⟨⟨.word kw, hkw⟩, rfl, spells_word hu (isWord_of_alpha hu hne h)⟩

theorem shown_ident (hu : u.Lawful) {name : String} (h : IsIdent u name) :
    Shown u ident name.toList name := by
  have hident : ident? (.word name) = some name := by simp [ident?, h.2]
  refine ⟨⟨.word name, by rw [hident]; rfl⟩, ?_, spells_word hu h.1⟩
  simp [hident]

theorem shown_opt_none (A : Phrase Token α) : Shown u A.opt [] none := ⟨none, rfl, spells_nil⟩

theorem Shown.opt {A : Phrase Token α} {cs : List Char} {a : α} (h : Shown u A cs a) :
    Shown u A.opt cs (some a) := by
  obtain ⟨d, rfl, hs⟩ := h
  exact ⟨some d, rfl, hs⟩

theorem Shown.reword {A : Phrase Token α} {cs : List Char} {a : α} (h : Shown u A cs a)
    (f : α → β) : Shown u (A.reword f) cs (f a) := by
  obtain ⟨d, rfl, hs⟩ := h
  exact ⟨d, rfl, hs⟩

/-- Several items, with a comma and a space between. -/
theorem shown_items (hu : u.Lawful) {A : Phrase Token α} {f : α → String} {l : List α}
    (hne : l ≠ []) (h : ∀ a ∈ l, Shown u A (f a).toList a) :
    Shown u (Grammar.items A) (join (l.map f)).toList l := by
  -- The items behind the first one.
  have htail : ∀ l : List α, (∀ a ∈ l, Shown u A (f a).toList a) →
      Shown u (do Grammar.symbol .comma; A : Phrase Token α).many
        (l.flatMap fun a => ", ".toList ++ (f a).toList) l := by
    intro l
    induction l with
    | nil => exact fun _ => ⟨[], rfl, spells_nil⟩
    | cons a l ih =>
      intro h
      obtain ⟨ds, hds, hs⟩ := ih fun b hb => h b (List.mem_cons_of_mem a hb)
      obtain ⟨d, hd, hds'⟩ := ((h a List.mem_cons_self).space hu).symbol hu
        (B := fun _ => A) (c := ',') rfl
      refine ⟨d :: ds, ?_, ?_⟩
      · exact congrArg₂ List.cons hd hds
      · refine Spells.append hds' hs ?_
        cases l with
        | nil => exact fun _ hc => nomatch hc
        | cons b l =>
          intro c hc
          cases hc
          exact .inr (.inr rfl)
  obtain ⟨a, l, rfl⟩ := List.exists_cons_of_ne_nil hne
  have hjoin : ∀ (l : List α) (a : α), (join ((a :: l).map f)).toList =
      (f a).toList ++ l.flatMap fun b => ", ".toList ++ (f b).toList := by
    intro l
    induction l with
    | nil => intro a; simp [join]
    | cons b l ih =>
      intro a
      rw [List.map_cons, List.map_cons, join, String.intercalate_cons_cons, String.toList_append,
        String.toList_append, ← List.map_cons, List.flatMap_cons, List.append_assoc,
        List.append_assoc]
      congr 1
      congr 1
      exact ih b
  rw [hjoin]
  refine (h a List.mem_cons_self).bind ((htail l fun b hb => h b
    (List.mem_cons_of_mem a hb)).reword (a :: ·)) ?_
  cases l with
  | nil => exact fun _ hc => nomatch hc
  | cons b l =>
    intro c hc
    cases hc
    exact .inr (.inr rfl)

/-! ## Expressions -/

@[simp] theorem yield_lift (e : ExprTree .primary) (l : Level) : (e.lift l).yield = e.yield := by
  cases l <;> rfl

@[simp] theorem value_lift (e : ExprTree .primary) (l : Level) : (e.lift l).value = e.value := by
  cases l <;> rfl

/-- The tree of an operation between two primaries. -/
theorem exists_operation (l r : ExprTree .primary) (op : BinaryOp) : ∃ d : ExprTree .or,
    d.value = .binary l.value op r.value ∧ d.yield = l.yield ++ op.token :: r.yield := by
  -- What is done at the level of comparisons and at the tighter ones.
  have hcmp : ∀ t o, (ht : cmpOp t = some o) → ∃ d : ExprTree .or,
      d.value = .binary l.value o r.value ∧ d.yield = l.yield ++ t :: r.yield := by
    intro t o ht
    have hsome : (cmpOp t).isSome := by rw [ht]; rfl
    refine ⟨.ofAnd (.ofNot (.ofCmp (.cmp (l.lift .cmp) ⟨t, hsome⟩ (r.lift .add)))), ?_, ?_⟩
    · simp [ExprTree.value, ht]
    · simp [ExprTree.yield]
  have hadd : ∀ t o, (ht : addOp t = some o) → ∃ d : ExprTree .or,
      d.value = .binary l.value o r.value ∧ d.yield = l.yield ++ t :: r.yield := by
    intro t o ht
    have hsome : (addOp t).isSome := by rw [ht]; rfl
    refine ⟨.ofAnd (.ofNot (.ofCmp (.ofAdd (.add (l.lift .add) ⟨t, hsome⟩ (r.lift .mul))))), ?_, ?_⟩
    · simp [ExprTree.value, ht]
    · simp [ExprTree.yield]
  have hmul : ∀ t o, (ht : mulOp t = some o) → ∃ d : ExprTree .or,
      d.value = .binary l.value o r.value ∧ d.yield = l.yield ++ t :: r.yield := by
    intro t o ht
    have hsome : (mulOp t).isSome := by rw [ht]; rfl
    refine ⟨.ofAnd (.ofNot (.ofCmp (.ofAdd (.ofMul (.mul (l.lift .mul) ⟨t, hsome⟩
      (r.lift .unary)))))), ?_, ?_⟩
    · simp [ExprTree.value, ht]
    · simp [ExprTree.yield]
  cases op with
  | add | sub => exact hadd _ _ rfl
  | mul | div => exact hmul _ _ rfl
  | eq | ne | lt | le | gt | ge => exact hcmp _ _ rfl
  | and =>
    refine ⟨.ofAnd (.and (l.lift .and) ⟨.word "AND", by decide⟩ (r.lift .not)), ?_, ?_⟩
    · simp [ExprTree.value]
    · simp [ExprTree.yield, BinaryOp.token]
  | or =>
    refine ⟨.or (l.lift .or) ⟨.word "OR", by decide⟩ (r.lift .and), ?_, ?_⟩
    · simp [ExprTree.value]
    · simp [ExprTree.yield, BinaryOp.token]

/-- An expression in parentheses. -/
theorem shown_paren (hu : u.Lawful) {cs : List Char} {e : Expr} (h : Shown u (exprAt .or) cs e) :
    Shown u (exprAt .primary) ('(' :: (cs ++ [')'])) e := by
  obtain ⟨d, rfl, hs⟩ := h
  refine ⟨.paren ⟨.lParen, rfl⟩ d ⟨.rParen, rfl⟩, rfl, ?_⟩
  refine Spells.cons hu rfl (hs.append (spells_nil.cons hu rfl) ?_)
  intro c hc
  cases hc
  exact .inr (.inl rfl)

theorem apart_space (cs : List Char) : Apart (' ' :: cs) := by
  intro c hc
  cases hc
  exact .inl rfl

theorem shown_literal (hu : u.Lawful) {l : Literal} (h : l.WellFormed) :
    Shown u (exprAt .primary) l.display.toList (.literal l) := by
  have hliteral : ∀ t, literal? t = some l → Spells u l.display.toList [t] →
      Shown u (exprAt .primary) l.display.toList (.literal l) := by
    intro t ht hs
    have hsome : (literal? t).isSome := by rw [ht]; rfl
    refine ⟨.literal ⟨t, hsome⟩, ?_, hs⟩
    simp [ExprTree.value, ht]
  have hword : ∀ w : String, w.toList ≠ [] →
      asciiAlpha w = true → Spells u w.toList [.word w] :=
    fun w hne h => spells_word hu (isWord_of_alpha hu hne h)
  cases l with
  | null => exact hliteral (.word "NULL") (by decide) (hword "NULL" (by decide) (by decide))
  | boolean b =>
    cases b with
    | true => exact hliteral (.word "TRUE") (by decide) (hword "TRUE" (by decide) (by decide))
    | false => exact hliteral (.word "FALSE") (by decide) (hword "FALSE" (by decide) (by decide))
  | text s =>
    refine hliteral (.str s) rfl ?_
    have htext : (Literal.text s).display.toList = '\'' :: (escapeQuotes s.toList ++ ['\'']) := by
      simp only [Literal.display, String.toList_append, String.toList_ofList]
      rfl
    rw [htext]
    exact spells_text hu s
  | integer n =>
    have hn : 0 ≤ n.toInt := Int64.le_iff_toInt_le.mp h
    have hlt : n.toNatClampNeg < 2 ^ 63 := Int64.toNatClampNeg_lt n
    have htext : (Literal.integer n).display = Nat.repr n.toNatClampNeg := by
      rw [Literal.display, ← Int.toNat_of_nonneg hn]
      rfl
    have hs := spells_integer hu hlt
    rw [Int64.ofNat_toNatClampNeg n h, ← htext] at hs
    exact hliteral (.integer n) rfl hs

/-- **An expression is read back from its text.** -/
theorem shown_expr (hu : u.Lawful) : ∀ e : Expr, e.WellFormed u →
    Shown u (exprAt .primary) e.display.toList e
  | .literal l, h => shown_literal hu h
  | .column name, h => by
    obtain ⟨d, hd, hs⟩ := shown_ident hu h
    exact ⟨.column d, congrArg Expr.column hd, hs⟩
  | .unary .neg e, h => by
    obtain ⟨d, hd, hs⟩ := shown_expr hu e h
    have htree : Shown u (exprAt .or) ('-' :: e.display.toList) (.unary .neg e) := by
      refine ⟨.ofAnd (.ofNot (.ofCmp (.ofAdd (.ofMul (.ofUnary
        (.neg ⟨.minus, rfl⟩ (d.lift .unary))))))), ?_, ?_⟩
      · exact congrArg (Expr.unary .neg) ((value_lift d .unary).trans hd)
      · have hs : Spells u e.display.toList (d.lift .unary).yield := (yield_lift d .unary).symm ▸ hs
        exact hs.cons hu rfl
    refine (shown_paren hu htree).of_eq ?_
    simp only [Expr.display, String.toList_append, List.append_assoc, List.cons_append]
    rfl
  | .unary .not e, h => by
    obtain ⟨d, hd, hs⟩ := shown_expr hu e h
    have htree : Shown u (exprAt .or) ("NOT".toList ++ ' ' :: e.display.toList) (.unary .not e) := by
      obtain ⟨kw, _, hkw⟩ := shown_keyword hu "NOT" (by decide) (by decide)
      refine ⟨.ofAnd (.ofNot (.not kw (d.lift .not))), ?_, ?_⟩
      · exact congrArg (Expr.unary .not) ((value_lift d .not).trans hd)
      · have hs : Spells u e.display.toList (d.lift .not).yield := (yield_lift d .not).symm ▸ hs
        exact hkw.append (hs.space hu) (apart_space _)
    refine (shown_paren hu htree).of_eq ?_
    simp only [Expr.display, String.toList_append, List.append_assoc, List.cons_append]
    rfl
  | .binary l op r, h => by
    obtain ⟨dl, hdl, hsl⟩ := shown_expr hu l h.1
    obtain ⟨dr, hdr, hsr⟩ := shown_expr hu r h.2
    have htree : Shown u (exprAt .or) (l.display.toList ++ ' ' ::
        (op.display.toList ++ ' ' :: r.display.toList)) (.binary l op r) := by
      obtain ⟨d, hd, hyield⟩ := exists_operation dl dr op
      refine ⟨d, hd.trans (by rw [← hdl, ← hdr]), ?_⟩
      have hs := hsl.append (((spells_operator hu op).append (hsr.space hu)
        (apart_space _)).space hu) (apart_space _)
      change Spells u _ d.yield
      rw [hyield]
      exact hs
    refine (shown_paren hu htree).of_eq ?_
    simp only [Expr.display, String.toList_append, List.append_assoc, List.cons_append]
    rfl
  | .isNull e negated, h => by
    obtain ⟨d, hd, hs⟩ := shown_expr hu e h
    obtain ⟨is, _, his⟩ := shown_keyword hu "IS" (by decide) (by decide)
    obtain ⟨not, _, hnot⟩ := shown_keyword hu "NOT" (by decide) (by decide)
    obtain ⟨null, _, hnull⟩ := shown_keyword hu "NULL" (by decide) (by decide)
    have hd : (d.lift .cmp).value = e := (value_lift d .cmp).trans hd
    have hs : Spells u e.display.toList (d.lift .cmp).yield := (yield_lift d .cmp).symm ▸ hs
    cases negated with
    | false =>
      have htree : Shown u (exprAt .or) (e.display.toList ++ ' ' ::
          ("IS".toList ++ ' ' :: "NULL".toList)) (.isNull e false) := by
        refine ⟨.ofAnd (.ofNot (.ofCmp (.isNull (d.lift .cmp) is none null))), ?_, ?_⟩
        · exact congrArg (Expr.isNull · false) hd
        · exact hs.append ((his.append (hnull.space hu) (apart_space _)).space hu) (apart_space _)
      refine (shown_paren hu htree).of_eq ?_
      simp only [Expr.display, String.toList_append, List.append_assoc, List.cons_append]
      rfl
    | true =>
      have htree : Shown u (exprAt .or) (e.display.toList ++ ' ' ::
          ("IS".toList ++ ' ' :: ("NOT".toList ++ ' ' :: "NULL".toList))) (.isNull e true) := by
        refine ⟨.ofAnd (.ofNot (.ofCmp (.isNull (d.lift .cmp) is (some not) null))), ?_, ?_⟩
        · exact congrArg (Expr.isNull · true) hd
        · exact hs.append ((his.append ((hnot.append (hnull.space hu) (apart_space _)).space hu)
            (apart_space _)).space hu) (apart_space _)
      refine (shown_paren hu htree).of_eq ?_
      simp only [Expr.display, String.toList_append, List.append_assoc, List.cons_append]
      rfl

/-! ## Statements -/

/-- A part, a space, and what follows. -/
theorem Shown.then (hu : u.Lawful) {A : Phrase Token α} {B : α → Phrase Token β}
    {cs cs' : List Char} {a : α} {b : β} (h : Shown u A cs a) (h' : Shown u (B a) cs' b) :
    Shown u (A >>= B) (cs ++ ' ' :: cs') b :=
  h.bind (h'.space hu) (apart_space _)

/-- The last part, from whose meaning that of the whole is made. -/
theorem Shown.last {A : Phrase Token α} {cs : List Char} {a : α} (h : Shown u A cs a) (f : α → β) :
    Shown u (A >>= fun a => pure (f a)) cs (f a) := by
  have hs := h.bind (shown_pure (f a)) (B := fun a => pure (f a)) (fun _ hc => nomatch hc)
  rwa [List.append_nil] at hs

theorem shown_word (hu : u.Lawful) {p : Token → Option α} {w : String} {a : α}
    (hp : p (.word w) = some a) (hne : w.toList ≠ [])
    (h : asciiAlpha w = true) :
    Shown u (Phrase.token p) w.toList a := by
  refine ⟨⟨.word w, by rw [hp]; rfl⟩, ?_, spells_word hu (isWord_of_alpha hu hne h)⟩
  simp [hp]

theorem shown_expr_or (hu : u.Lawful) {e : Expr} (h : e.WellFormed u) :
    Shown u Grammar.expr e.display.toList e := by
  obtain ⟨d, hd, hs⟩ := shown_expr hu e h
  refine ⟨d.lift .or, (value_lift d .or).trans hd, ?_⟩
  have hs : Spells u e.display.toList (d.lift .or).yield := (yield_lift d .or).symm ▸ hs
  exact hs

theorem shown_columnType (hu : u.Lawful) (ty : ColumnType) :
    Shown u (Phrase.token columnType?) (typeName ty).toList ty := by
  cases ty with
  | integer => exact shown_word hu (w := "INTEGER") (by decide) (by decide) (by decide)
  | text => exact shown_word hu (w := "TEXT") (by decide) (by decide) (by decide)
  | bytes => exact shown_word hu (w := "BYTES") (by decide) (by decide) (by decide)
  | boolean => exact shown_word hu (w := "BOOLEAN") (by decide) (by decide) (by decide)

theorem apart_nil : Apart [] := fun _ hc => nomatch hc

theorem shown_modifiers (hu : u.Lawful) (primaryKey notNull : Bool) :
    Shown u (Phrase.Chain.steps modifier (false, false))
      ((if primaryKey then " PRIMARY KEY".toList else []) ++
        (if notNull then " NOT NULL".toList else [])) (primaryKey, notNull) := by
  obtain ⟨primary, _, hprimary⟩ := shown_keyword hu "PRIMARY" (by decide) (by decide)
  obtain ⟨key, _, hkey⟩ := shown_keyword hu "KEY" (by decide) (by decide)
  obtain ⟨not, _, hnot⟩ := shown_keyword hu "NOT" (by decide) (by decide)
  obtain ⟨null, _, hnull⟩ := shown_keyword hu "NULL" (by decide) (by decide)
  have hpk := (hprimary.append (hkey.space hu) (apart_space _)).space hu
  have hnn := (hnot.append (hnull.space hu) (apart_space _)).space hu
  cases primaryKey with
  | false =>
    cases notNull with
    | false => exact ⟨[], rfl, spells_nil⟩
    | true => exact ⟨[.inr ⟨not, null, ()⟩], rfl, hnn⟩
  | true =>
    cases notNull with
    | false => exact ⟨[.inl ⟨primary, key, ()⟩], rfl, hpk.append spells_nil apart_nil⟩
    | true =>
      exact ⟨[.inl ⟨primary, key, ()⟩, .inr ⟨not, null, ()⟩], rfl, hpk.append hnn (apart_space _)⟩

theorem apart_modifiers (primaryKey notNull : Bool) :
    Apart ((if primaryKey then " PRIMARY KEY".toList else []) ++
      (if notNull then " NOT NULL".toList else [])) := by
  cases primaryKey <;> cases notNull <;> first | exact apart_nil | exact apart_space _

theorem shown_columnSpec (hu : u.Lawful) {c : ColumnSpec} (h : IsIdent u c.name) :
    Shown u Grammar.columnSpec c.display.toList c := by
  obtain ⟨name, ty, primaryKey, notNull⟩ := c
  have hmodifiers := (shown_modifiers hu primaryKey notNull).last
    fun m => (⟨name, ty, m.1, m.2⟩ : ColumnSpec)
  refine Shown.of_eq ((shown_ident hu h).then hu ((shown_columnType hu ty).bind hmodifiers
    (apart_modifiers _ _))) ?_
  simp only [ColumnSpec.display, String.toList_append, List.append_assoc]
  cases primaryKey <;> cases notNull <;> rfl

theorem apart_paren (cs : List Char) : Apart (')' :: cs) := by
  intro c hc
  cases hc
  exact .inr (.inl rfl)

theorem shown_createTable (hu : u.Lawful) {name : String} {columns : List ColumnSpec}
    (h : (Statement.createTable name columns).WellFormed u) :
    Shown u Grammar.statement (Statement.createTable name columns).display.toList
      (.createTable name columns) := by
  have hcolumns := shown_items hu h.2.1 (f := ColumnSpec.display)
    fun c hc => shown_columnSpec hu (h.2.2 c hc)
  refine Shown.of_eq ((shown_word hu (w := "CREATE") (a := Verb.create) (by decide) (by decide)
    (by decide)).then hu ((shown_keyword hu "TABLE" (by decide) (by decide)).then hu
    ((shown_ident hu h.1).then hu (Shown.symbol hu (c := '(') rfl (hcolumns.bind
      (Shown.symbol hu (c := ')') rfl (shown_pure _)) (apart_paren _)))))) ?_
  unfold Statement.display
  simp only [String.toList_append, List.append_assoc]
  rfl

/-! The optional clauses bring the space in front of them with them. -/

theorem shown_where (hu : u.Lawful) {filter : Option Expr} (h : ∀ e ∈ filter, e.WellFormed u) :
    Shown u Grammar.optWhere (displayWhere filter).toList filter ∧
      Apart (displayWhere filter).toList := by
  cases filter with
  | none => exact ⟨shown_opt_none _, apart_nil⟩
  | some e =>
    have hclause := (shown_keyword hu "WHERE" (by decide) (by decide)).then hu
      (B := fun _ => Grammar.expr) (shown_expr_or hu (h e rfl))
    constructor
    · refine Shown.of_eq (hclause.opt.space hu) ?_
      simp only [displayWhere, String.toList_append]
      rfl
    · simp only [displayWhere, String.toList_append]
      exact apart_space _

theorem shown_orderBy (hu : u.Lawful) {o : OrderBy} (h : IsIdent u o.column) :
    Shown u Grammar.orderBy o.display.toList o ∧ Apart o.display.toList := by
  have hdirection : Shown u (Phrase.token direction?).opt
      (if o.descending then "DESC" else "ASC").toList (some o.descending) := by
    cases o.descending with
    | true => exact (shown_word hu (w := "DESC") (a := true) (by decide) (by decide)
      (by decide)).opt
    | false => exact (shown_word hu (w := "ASC") (a := false) (by decide) (by decide)
      (by decide)).opt
  constructor
  · refine Shown.of_eq (((shown_keyword hu "ORDER" (by decide) (by decide)).then hu
      ((shown_keyword hu "BY" (by decide) (by decide)).then hu ((shown_ident hu h).then hu
        (hdirection.last fun d => (⟨o.column, d.getD false⟩ : OrderBy))))).space hu) ?_
    simp only [OrderBy.display, String.toList_append, List.append_assoc]
    rfl
  · simp only [OrderBy.display, String.toList_append, List.append_assoc]
    exact apart_space _

theorem shown_limit (hu : u.Lawful) {n : UInt64} (h : n.toNat < 2 ^ 63) :
    Shown u Grammar.limit (" LIMIT " ++ toString n.toNat).toList n := by
  have hn : (Int64.ofNat n.toNat).toUInt64 = n := by
    rw [Int64.toUInt64_ofNat', UInt64.ofNat_toNat]
  have hnumber : Shown u (Phrase.token limit?) (Nat.repr n.toNat).toList n := by
    refine ⟨⟨.integer (Int64.ofNat n.toNat), rfl⟩, ?_, spells_integer hu h⟩
    exact hn
  refine Shown.of_eq (((shown_keyword hu "LIMIT" (by decide) (by decide)).then hu hnumber).space
    hu) ?_
  simp only [String.toList_append]
  rfl

theorem shown_projection (hu : u.Lawful) {p : Projection} (h : p.WellFormed u) :
    Shown u Grammar.projection p.display.toList p := by
  cases p with
  | all => exact ⟨.inl ⟨⟨.star, rfl⟩, ()⟩, rfl, spells_nil.cons hu rfl⟩
  | columns names =>
    obtain ⟨d, hd, hs⟩ := shown_items hu h.1 (f := id) fun name hname =>
      shown_ident hu (h.2 name hname)
    refine ⟨.inr d, congrArg Projection.columns hd, ?_⟩
    rw [List.map_id] at hs
    exact hs

theorem shown_row (hu : u.Lawful) {row : List Expr} (h : AllOf (Expr.WellFormed u) row) :
    Shown u Grammar.valuesRow (displayRow row).toList row := by
  have hitems := shown_items hu h.1 fun e he => shown_expr_or hu (h.2 e he)
  refine Shown.of_eq (Shown.symbol hu (c := '(') rfl (hitems.bind
    (Shown.symbol hu (c := ')') rfl (shown_pure row)) (apart_paren _))) ?_
  simp only [displayRow, String.toList_append]
  rfl

theorem shown_insert (hu : u.Lawful) {table : String} {columns : Option (List String)}
    {rows : List (List Expr)} (h : (Statement.insert table columns rows).WellFormed u) :
    Shown u Grammar.statement (Statement.insert table columns rows).display.toList
      (.insert table columns rows) := by
  obtain ⟨htable, hcolumns, hrows⟩ := h
  have hvalues := (shown_keyword hu "VALUES" (by decide) (by decide)).then hu
    (B := fun _ => Grammar.items Grammar.valuesRow >>= fun rows =>
      pure (Statement.insert table columns rows))
    ((shown_items hu hrows.1 fun row hrow => shown_row hu (hrows.2 row hrow)).last
      fun rows => Statement.insert table columns rows)
  cases columns with
  | none =>
    refine Shown.of_eq ((shown_word hu (w := "INSERT") (a := Verb.insert) (by decide) (by decide)
      (by decide)).then hu ((shown_keyword hu "INTO" (by decide) (by decide)).then hu
      ((shown_ident hu htable).bind ((shown_opt_none _).bind (hvalues.space hu) (apart_space _))
        (apart_space _)))) ?_
    unfold Statement.display
    simp only [String.toList_append, List.append_assoc]
    rfl
  | some names =>
    obtain ⟨hne, hnames⟩ := hcolumns names rfl
    have hitems := shown_items hu hne (f := id) fun name hname => shown_ident hu (hnames name hname)
    rw [List.map_id] at hitems
    have hlist : Shown u (do Grammar.symbol .lParen; let c ← Grammar.identList
                             Grammar.symbol .rParen; return c : Phrase Token (List String)).opt
        ('(' :: ((join names).toList ++ [')'])) (some names) :=
      (Shown.symbol hu rfl (hitems.bind (Shown.symbol hu rfl (shown_pure names))
        (apart_paren _))).opt
    refine Shown.of_eq ((shown_word hu (w := "INSERT") (a := Verb.insert) (by decide) (by decide)
      (by decide)).then hu ((shown_keyword hu "INTO" (by decide) (by decide)).then hu
      ((shown_ident hu htable).then hu (hlist.then hu hvalues)))) ?_
    unfold Statement.display
    simp only [String.toList_append, List.append_assoc, List.cons_append]
    rfl

theorem shown_select (hu : u.Lawful) {p : Projection} {table : String} {filter : Option Expr}
    {order : Option OrderBy} {limit : Option UInt64}
    (h : (Statement.select p table filter order limit).WellFormed u) :
    Shown u Grammar.statement (Statement.select p table filter order limit).display.toList
      (.select p table filter order limit) := by
  obtain ⟨hp, htable, hfilter, horder, hlimit⟩ := h
  obtain ⟨hwhere, hwhere'⟩ := shown_where hu hfilter
  have hlast : ∃ cs, cs = (limit.elim "" fun n => " LIMIT " ++ toString n.toNat).toList ∧
      Shown u Grammar.limit.opt cs limit ∧ Apart cs := by
    refine ⟨_, rfl, ?_⟩
    cases limit with
    | none => exact ⟨shown_opt_none _, apart_nil⟩
    | some n =>
      refine ⟨(shown_limit hu (hlimit n rfl)).opt, ?_⟩
      simp only [Option.elim_some, String.toList_append]
      exact apart_space _
  have hmiddle : ∃ cs, cs = (order.elim "" OrderBy.display).toList ∧
      Shown u Grammar.orderBy.opt cs order ∧ Apart cs := by
    refine ⟨_, rfl, ?_⟩
    cases order with
    | none => exact ⟨shown_opt_none _, apart_nil⟩
    | some o => exact ⟨(shown_orderBy hu (horder o rfl)).1.opt, (shown_orderBy hu (horder o rfl)).2⟩
  obtain ⟨last, hlast, hlimit, hlimit'⟩ := hlast
  obtain ⟨middle, hmiddle, horder, horder'⟩ := hmiddle
  refine Shown.of_eq ((shown_word hu (w := "SELECT") (a := Verb.select) (by decide) (by decide)
    (by decide)).then hu ((shown_projection hu hp).then hu
    ((shown_keyword hu "FROM" (by decide) (by decide)).then hu
    ((shown_ident hu htable).bind (hwhere.bind (horder.bind
      (hlimit.last fun limit => Statement.select p table filter order limit) hlimit')
      (apart_append horder' hlimit')) (apart_append hwhere' (apart_append horder' hlimit')))))) ?_
  rw [hlast, hmiddle]
  unfold Statement.display
  simp only [String.toList_append, List.append_assoc]
  cases limit <;> cases order <;> rfl

theorem shown_assignment (hu : u.Lawful) {a : String × Expr}
    (h : IsIdent u a.1 ∧ a.2.WellFormed u) :
    Shown u Grammar.assignment (displayAssignment a).toList a := by
  have heq : Shown u (Grammar.symbol .eq) ['='] () :=
    ⟨⟨.eq, rfl⟩, rfl, spells_nil.cons hu rfl⟩
  refine Shown.of_eq ((shown_ident hu h.1).then hu (heq.then hu
    ((shown_expr_or hu h.2).last fun e => (a.1, e)))) ?_
  simp only [displayAssignment, String.toList_append, List.append_assoc]
  rfl

theorem shown_update (hu : u.Lawful) {table : String} {assignments : List (String × Expr)}
    {filter : Option Expr} (h : (Statement.update table assignments filter).WellFormed u) :
    Shown u Grammar.statement (Statement.update table assignments filter).display.toList
      (.update table assignments filter) := by
  obtain ⟨htable, hassignments, hfilter⟩ := h
  obtain ⟨hwhere, hwhere'⟩ := shown_where hu hfilter
  have hitems := shown_items hu hassignments.1 fun a ha =>
    shown_assignment hu (hassignments.2 a ha)
  refine Shown.of_eq ((shown_word hu (w := "UPDATE") (a := Verb.update) (by decide) (by decide)
    (by decide)).then hu ((shown_ident hu htable).then hu
    ((shown_keyword hu "SET" (by decide) (by decide)).then hu
    (hitems.bind (hwhere.last fun f => Statement.update table assignments f) hwhere')))) ?_
  unfold Statement.display
  simp only [String.toList_append, List.append_assoc]
  rfl

theorem shown_delete (hu : u.Lawful) {table : String} {filter : Option Expr}
    (h : (Statement.delete table filter).WellFormed u) :
    Shown u Grammar.statement (Statement.delete table filter).display.toList
      (.delete table filter) := by
  obtain ⟨hwhere, hwhere'⟩ := shown_where hu h.2
  refine Shown.of_eq ((shown_word hu (w := "DELETE") (a := Verb.delete) (by decide) (by decide)
    (by decide)).then hu ((shown_keyword hu "FROM" (by decide) (by decide)).then hu
    ((shown_ident hu h.1).bind (hwhere.last fun f => Statement.delete table f) hwhere'))) ?_
  unfold Statement.display
  simp only [String.toList_append, List.append_assoc]
  rfl

/-- **A well-formed statement is read back from its text.** -/
theorem shown_statement (hu : u.Lawful) {s : Statement} (h : s.WellFormed u) :
    Shown u Grammar.statement s.display.toList s := by
  cases s with
  | createTable name columns => exact shown_createTable hu h
  | insert table columns rows => exact shown_insert hu h
  | select p table filter order limit => exact shown_select hu h
  | update table assignments filter => exact shown_update hu h
  | delete table filter => exact shown_delete hu h
  | begin =>
    exact (shown_word hu (w := "BEGIN") (a := Verb.begin) (by decide) (by decide)
      (by decide)).bind (B := body) (shown_pure Statement.begin) apart_nil
  | commit =>
    exact (shown_word hu (w := "COMMIT") (a := Verb.commit) (by decide) (by decide)
      (by decide)).bind (B := body) (shown_pure Statement.commit) apart_nil
  | rollback =>
    exact (shown_word hu (w := "ROLLBACK") (a := Verb.rollback) (by decide) (by decide)
      (by decide)).bind (B := body) (shown_pure Statement.rollback) apart_nil

/-! ## What is read is well-formed -/

theorem gives_ident : ident.Gives (Token.Lexed u) (IsIdent u) := by
  refine Phrase.gives_token fun t name h ht => ?_
  cases t with
  | word w =>
    rw [ident?] at h
    split at h
    · cases h
    · rename_i hkw
      cases h
      exact ⟨ht, Bool.eq_false_iff.mpr hkw⟩
  | _ => cases h

theorem gives_literal : (Phrase.token literal?).Gives (Token.Lexed u) Literal.WellFormed := by
  refine Phrase.gives_token fun t l h ht => ?_
  cases t with
  | integer n =>
    cases h
    exact ht
  | str s =>
    cases h
    trivial
  | word w =>
    simp only [literal?] at h
    split at h
    · cases h
      trivial
    · split at h
      · cases h
        trivial
      · split at h
        · cases h
          trivial
        · cases h
  | _ => cases h

theorem gives_exprAt (l : Level) : (exprAt l).Gives (Token.Lexed u) (Expr.WellFormed u) := by
  intro d
  induction d with
  | ofAnd e ih | ofNot e ih | ofCmp e ih | ofAdd e ih | ofMul e ih | ofUnary e ih
  | ofPrimary e ih => exact ih
  | literal l => exact gives_literal l
  | column name => exact gives_ident name
  | not kw e ih => exact fun hd => ih (List.forall_mem_cons.mp hd).2
  | neg minus e ih => exact fun hd => ih (List.forall_mem_cons.mp hd).2
  | paren left e right ih =>
    intro hd
    exact ih (List.forall_mem_append.mp (List.forall_mem_cons.mp hd).2).1
  | or l kw r ihl ihr | and l kw r ihl ihr | cmp l kw r ihl ihr | add l kw r ihl ihr
  | mul l kw r ihl ihr =>
    intro hd
    obtain ⟨hl, hr⟩ := List.forall_mem_append.mp hd
    exact ⟨ihl hl, ihr (List.forall_mem_cons.mp hr).2⟩
  | isNull l is negated null ih => exact fun hd => ih (List.forall_mem_append.mp hd).1

theorem gives_items {A : Phrase Token α} {Q : α → Prop} (hA : A.Gives (Token.Lexed u) Q) :
    (Grammar.items A).Gives (Token.Lexed u) (AllOf Q) := by
  refine hA.bind fun a ha => ?_
  refine (Phrase.Gives.many (Phrase.gives_true.bind fun _ _ => hA)).reword _ fun l hl => ?_
  exact ⟨List.cons_ne_nil a l, List.forall_mem_cons.mpr ⟨ha, hl⟩⟩

theorem gives_where : Grammar.optWhere.Gives (Token.Lexed u) fun f => ∀ e ∈ f, e.WellFormed u :=
  Phrase.Gives.opt (Phrase.gives_true.bind fun _ _ => gives_exprAt .or)

theorem gives_columnSpec : Grammar.columnSpec.Gives (Token.Lexed u) fun c => IsIdent u c.name :=
  gives_ident.bind fun _ hname => Phrase.gives_true.bind fun _ _ =>
    Phrase.gives_true.bind fun _ _ => Phrase.gives_pure hname

theorem gives_createTable : Grammar.createTable.Gives (Token.Lexed u) (Statement.WellFormed u) :=
  Phrase.gives_true.bind fun _ _ => gives_ident.bind fun _ hname =>
    Phrase.gives_true.bind fun _ _ => (gives_items gives_columnSpec).bind fun _ hcolumns =>
    Phrase.gives_true.bind fun _ _ => Phrase.gives_pure ⟨hname, hcolumns⟩

theorem gives_row : Grammar.valuesRow.Gives (Token.Lexed u) (AllOf (Expr.WellFormed u)) :=
  Phrase.gives_true.bind fun _ _ => (gives_items (gives_exprAt .or)).bind fun _ hrow =>
    Phrase.gives_true.bind fun _ _ => Phrase.gives_pure hrow

theorem gives_insert : Grammar.insert.Gives (Token.Lexed u) (Statement.WellFormed u) := by
  have hcolumns : (do symbol .lParen; let c ← identList; symbol .rParen; return c :
      Phrase Token (List String)).opt.Gives (Token.Lexed u)
      fun o => ∀ names ∈ o, AllOf (IsIdent u) names :=
    Phrase.Gives.opt (Phrase.gives_true.bind fun _ _ => (gives_items gives_ident).bind
      fun _ hnames => Phrase.gives_true.bind fun _ _ => Phrase.gives_pure hnames)
  exact Phrase.gives_true.bind fun _ _ => gives_ident.bind fun _ htable =>
    hcolumns.bind fun _ hcolumns => Phrase.gives_true.bind fun _ _ =>
    (gives_items gives_row).bind fun _ hrows => Phrase.gives_pure ⟨htable, hcolumns, hrows⟩

theorem gives_orderBy : Grammar.orderBy.Gives (Token.Lexed u) fun o => IsIdent u o.column :=
  Phrase.gives_true.bind fun _ _ => Phrase.gives_true.bind fun _ _ =>
    gives_ident.bind fun _ hcolumn => Phrase.gives_true.bind fun _ _ => Phrase.gives_pure hcolumn

theorem gives_limit : Grammar.limit.Gives (Token.Lexed u) fun n => n.toNat < 2 ^ 63 := by
  refine Phrase.gives_true.bind fun _ _ => Phrase.gives_token fun t n h ht => ?_
  cases t with
  | integer i =>
    cases h
    rw [Int64.toNat_toUInt64_of_le ht]
    exact Int64.toNatClampNeg_lt i
  | _ => cases h

theorem gives_projection : Grammar.projection.Gives (Token.Lexed u) (Projection.WellFormed u) :=
  Phrase.Gives.either (Phrase.gives_true.bind fun _ _ => Phrase.gives_pure trivial)
    ((gives_items gives_ident).reword _ fun _ hnames => hnames)

theorem gives_select : Grammar.select.Gives (Token.Lexed u) (Statement.WellFormed u) :=
  gives_projection.bind fun _ hp => Phrase.gives_true.bind fun _ _ =>
    gives_ident.bind fun _ htable => gives_where.bind fun _ hfilter =>
    gives_orderBy.opt.bind fun _ horder => gives_limit.opt.bind fun _ hlimit =>
    Phrase.gives_pure ⟨hp, htable, hfilter, horder, hlimit⟩

theorem gives_assignment : Grammar.assignment.Gives (Token.Lexed u)
    fun a => IsIdent u a.1 ∧ a.2.WellFormed u :=
  gives_ident.bind fun _ hcol => Phrase.gives_true.bind fun _ _ =>
    (gives_exprAt .or).bind fun _ he => Phrase.gives_pure ⟨hcol, he⟩

theorem gives_update : Grammar.update.Gives (Token.Lexed u) (Statement.WellFormed u) :=
  gives_ident.bind fun _ htable => Phrase.gives_true.bind fun _ _ =>
    (gives_items gives_assignment).bind fun _ hassignments => gives_where.bind fun _ hfilter =>
    Phrase.gives_pure ⟨htable, hassignments, hfilter⟩

theorem gives_delete : Grammar.delete.Gives (Token.Lexed u) (Statement.WellFormed u) :=
  Phrase.gives_true.bind fun _ _ => gives_ident.bind fun _ htable =>
    gives_where.bind fun _ hfilter => Phrase.gives_pure ⟨htable, hfilter⟩

theorem gives_statement : Grammar.statement.Gives (Token.Lexed u) (Statement.WellFormed u) := by
  refine Phrase.gives_true.bind fun verb _ => ?_
  cases verb with
  | create => exact gives_createTable
  | insert => exact gives_insert
  | select => exact gives_select
  | update => exact gives_update
  | delete => exact gives_delete
  | begin | commit | rollback => exact Phrase.gives_pure trivial

/-- **The statements of a script are well-formed** when its tokens come from a text. -/
theorem gives_script : Grammar.script.Gives (Token.Lexed u) fun ss => ∀ s ∈ ss, s.WellFormed u := by
  intro d
  induction d with
  | done => exact fun _ _ hs => nomatch hs
  | semicolon rest ih => exact fun hd => ih (List.forall_mem_cons.mp hd).2
  | last s => exact fun hd => List.forall_mem_singleton.mpr (gives_statement s hd)
  | next s rest ih =>
    intro hd
    obtain ⟨hs, hrest⟩ := List.forall_mem_append.mp hd
    exact List.forall_mem_cons.mpr ⟨gives_statement s hs, ih (List.forall_mem_cons.mp hrest).2⟩

/-! ## The round trip -/

theorem parse_display (hu : u.Lawful) {s : Statement} (h : s.WellFormed u) :
    parse u s.display = .ok s := by
  obtain ⟨d, rfl, hs⟩ := shown_statement hu h
  obtain ⟨ts, pos, hyield, hlex⟩ := hs [] 0 apart_nil
  refine parse_eq_ok.mpr (parseScript_eq_ok.mpr ⟨ts, ?_, statements_eq_ok.mpr
    ⟨.last d, hyield.symm, rfl⟩⟩)
  rw [lex, ← List.append_nil (String.toList _), hlex, Lexer.lexFrom]
  exact congrArg Except.ok (List.append_nil ts)

theorem wellFormed_of_parseScript {sql : String} {stmts : List Statement}
    (h : parseScript u sql = .ok stmts) : ∀ s ∈ stmts, s.WellFormed u := by
  obtain ⟨ts, hlex, hs⟩ := parseScript_eq_ok.mp h
  obtain ⟨d, hyield, rfl⟩ := statements_eq_ok.mp hs
  refine gives_script d fun t ht => ?_
  change t ∈ d.yield at ht
  rw [hyield] at ht
  exact (lexes_of_ok _ _ ts hlex).lexed t ht

theorem wellFormed_of_parse {sql : String} {s : Statement} (h : parse u sql = .ok s) :
    s.WellFormed u :=
  wellFormed_of_parseScript (parse_eq_ok.mp h) s List.mem_cons_self

/-- **Parsing inverts rendering, and reads nothing but well-formed statements.** A well-formed
statement is read back from its text, and what is read of any text is well-formed, so that it is
read back from its own text too. -/
theorem parse_inverts_display (u : Unicode) (hu : u.Lawful) :
    (∀ s : Statement, s.WellFormed u → parse u s.display = .ok s) ∧
      ∀ t s, parse u t = .ok s → s.WellFormed u ∧ parse u s.display = .ok s :=
  ⟨fun _ h => parse_display hu h,
    fun _ _ h => ⟨wellFormed_of_parse h, parse_display hu (wellFormed_of_parse h)⟩⟩

/-- A text of quotes under a negation is read back from between its parentheses. -/
theorem parse_inverts_display_sample : parse Unicode.ascii (Statement.delete "t"
      (some (.unary .not (.binary (.column "a") .le (.literal (.text "'"))))) : Statement).display =
    .ok (.delete "t" (some (.unary .not (.binary (.column "a") .le (.literal (.text "'")))))) := by
  refine (parse_inverts_display Unicode.ascii Unicode.lawful_ascii).1 _ ⟨⟨?_, by decide⟩, ?_⟩
  · exact isWord_of_alpha Unicode.lawful_ascii (by decide) (by decide)
  · intro e he
    cases he
    exact ⟨⟨isWord_of_alpha Unicode.lawful_ascii (by decide) (by decide), by decide⟩, trivial⟩

end Choam
