import Choam.Verify.Grammar

/-!
# The parser reads the grammar

Each function of the parser `Reads` its phrase: what it returns stands for a derivation, and its
errors stand where no derivation goes on. The functions for expressions call each other on fewer
and fewer tokens, so their rules are proved together, by induction on the number of tokens.
-/

namespace Choam

open Choam.Parser Choam.Grammar
open Phrase (Reads)

variable {u : Unicode}

/-! ## Tokens -/

theorem stands_here (ts : Tokens) (expected : String) :
    Stands u [] ts (unexpected u ts expected) :=
  .here [] ts expected fun _ _ ht => nomatch ht

theorem eat_cases (want : Token) (ts : Tokens) :
    (∃ t r h, ts = t :: r ∧ only? want t.1 = some () ∧ eat want ts = some ⟨r, h⟩) ∨
      (eat want ts = none ∧ ∀ t ∈ ts.head?, only? want t.1 = none) := by
  cases ts with
  | nil => exact .inr ⟨rfl, fun _ ht => nomatch ht⟩
  | cons t r =>
    by_cases h : t.1 = want
    · exact .inl ⟨t, r, Nat.lt_succ_self _, rfl, by simp [only?, h], by simp [eat, h]⟩
    · refine .inr ⟨by simp [eat, h], fun t' ht' => ?_⟩
      obtain rfl := Option.some.inj ht'
      simp [only?, h]

theorem eatKeyword_cases (kw : String) (ts : Tokens) :
    (∃ t r h, ts = t :: r ∧ word? kw t.1 = some () ∧ eatKeyword kw ts = some ⟨r, h⟩) ∨
      (eatKeyword kw ts = none ∧ ∀ t ∈ ts.head?, word? kw t.1 = none) := by
  cases ts with
  | nil => exact .inr ⟨rfl, fun _ ht => nomatch ht⟩
  | cons t r =>
    obtain ⟨t, pos⟩ := t
    cases t with
    | word w =>
      by_cases h : eqIgnoreAsciiCase w kw
      · exact .inl ⟨_, r, Nat.lt_succ_self _, rfl, by simp [word?, h], by simp [eatKeyword, h]⟩
      · refine .inr ⟨by simp [eatKeyword, h], fun t' ht' => ?_⟩
        obtain rfl := Option.some.inj ht'
        simp [word?, h]
    | _ =>
      refine .inr ⟨rfl, fun t' ht' => ?_⟩
      obtain rfl := Option.some.inj ht'
      rfl

theorem eatOp_cases (op? : Token → Option BinaryOp) (ts : Tokens) :
    (∃ t r h op, ts = t :: r ∧ op? t.1 = some op ∧ eatOp op? ts = some (op, ⟨r, h⟩)) ∨
      (eatOp op? ts = none ∧ ∀ t ∈ ts.head?, op? t.1 = none) := by
  cases ts with
  | nil => exact .inr ⟨rfl, fun _ ht => nomatch ht⟩
  | cons t r =>
    cases h : op? t.1 with
    | some op => exact .inl ⟨t, r, Nat.lt_succ_self _, op, rfl, h, by simp [eatOp, h]⟩
    | none =>
      refine .inr ⟨by simp [eatOp, h], fun t' ht' => ?_⟩
      obtain rfl := Option.some.inj ht'
      exact h

theorem reads_expect {want : Token} (what : String) (ts : Tokens) :
    (symbol want).Reads (Stands u) ts ((expect u want what ts).map fun r => ((), r)) := by
  rcases eat_cases want ts with ⟨t, r, h, rfl, ht, heq⟩ | ⟨heq, hno⟩
  · rw [expect, heq]
    exact .token ht h
  · rw [expect, heq]
    exact .no_token (stands_here ts what) ⟨want, only?_isSome.mpr rfl⟩ hno

theorem reads_expectKeyword {kw : String} (ts : Tokens) :
    (keyword kw).Reads (Stands u) ts ((expectKeyword u kw ts).map fun r => ((), r)) := by
  rcases eatKeyword_cases kw ts with ⟨t, r, h, rfl, ht, heq⟩ | ⟨heq, hno⟩
  · rw [expectKeyword, heq]
    exact .token ht h
  · rw [expectKeyword, heq]
    exact .no_token (stands_here ts kw) (exists_word? kw) hno

theorem reads_ident (what : String) (ts : Tokens) :
    ident.Reads (Stands u) ts (Parser.ident u what ts) := by
  have hno : (∀ t ∈ ts.head?, ident? t.1 = none) →
      ident.Reads (Stands u) ts
        (.error (unexpected u ts what) : Except ParseError (String × Shorter ts)) :=
    .no_token (stands_here ts what) ⟨.word "t", by decide⟩
  cases ts with
  | nil => exact hno fun _ ht => nomatch ht
  | cons t r =>
    obtain ⟨t, pos⟩ := t
    cases t with
    | word w =>
      rw [Parser.ident]
      by_cases hw : isKeyword w
      · rw [if_pos hw]
        refine hno fun t ht => ?_
        obtain rfl := Option.some.inj ht
        simp [ident?, hw]
      · rw [if_neg hw]
        exact .token (by simp [ident?, hw]) _
    | _ =>
      refine hno fun t ht => ?_
      obtain rfl := Option.some.inj ht
      rfl

/-! ## Expressions -/

/-- Reading the steps of a left-recursive level. `loop` is the parser's loop: it ends where no step
starts, and otherwise reads a right side and goes on with the tree made of it. -/
theorem reads_loop {α : Type} {p : Token → Option α} {l : Level} {f : α → Expr → Expr → Expr}
    {sub : (ts : Tokens) → Except ParseError (Expr × Shorter ts)}
    {loop : Expr → (ts : Tokens) → Except ParseError (Expr × NotLonger ts)} {n : Nat}
    (hp : (Phrase.token p).Lawful (Stands u))
    (hsub : ∀ ts, ts.length < n → (exprAt l).Reads (Stands u) ts (sub ts))
    (hend : ∀ d : ExprTree l, ∀ t, (p t).isSome → d.Stop t)
    (hnone : ∀ left ts, (∀ t ∈ ts.head?, p t.1 = none) → loop left ts = .ok (left, ⟨ts, le_rfl⟩))
    (hsome : ∀ left t ts a, p t.1 = some a → ∃ g : Expr × Shorter ts → Except ParseError
      (Expr × NotLonger (t :: ts)), loop left (t :: ts) = sub ts >>= g ∧
        ∀ right r, ∃ k : Expr × NotLonger r.val → Except ParseError (Expr × NotLonger (t :: ts)),
          g (right, r) = loop (f a right left) r.val >>= k ∧
            ∀ e s, ∃ hs, k (e, s) = .ok (e, ⟨s.val, hs⟩)) :
    ∀ ts, ts.length < n → ∀ left,
      (Phrase.Chain.steps (Phrase.token p >>= fun a => (exprAt l).reword (f a)) left).Reads
        (Stands u) ts (loop left ts) := by
  suffices h : ∀ m ts, ts.length = m → ts.length < n → ∀ left,
      (Phrase.Chain.steps (Phrase.token p >>= fun a => (exprAt l).reword (f a)) left).Reads
        (Stands u) ts (loop left ts) from fun ts => h _ ts rfl
  intro m
  induction m using Nat.strong_induction_on with
  | _ m ih =>
    rintro ts rfl hn left
    have hne : ∀ a, Nonempty ((exprAt l).reword (f a)).Tree :=
      fun _ => inferInstanceAs (Nonempty (exprAt l).Tree)
    have hheads : (Phrase.token p >>= fun a => (exprAt l).reword (f a)).Heads
        fun t => (p t).isSome := (Phrase.heads_token fun _ h => h).bind _
    cases hhead : ts.head? with
    | none =>
      rw [hnone left ts fun t ht => by rw [hhead] at ht; cases ht]
      refine .many_nil (fun t ht => by rw [hhead] at ht; cases ht) (Nat.le_refl _) _
    | some t =>
      cases ht : p t.1 with
      | none =>
        have hts : ∀ t' ∈ ts.head?, p t'.1 = none := by
          intro t' ht'
          rw [hhead] at ht'
          exact Option.some.inj ht' ▸ ht
        rw [hnone left ts hts]
        refine .many_nil (fun t' ht' hstart => ?_) (Nat.le_refl _) _
        have hsome := hheads.of_starts hstart
        rw [hts t' ht'] at hsome
        cases hsome
      | some a =>
        obtain ⟨r, rfl⟩ : ∃ r, ts = t :: r := by
          cases ts with
          | nil => cases hhead
          | cons t' r => exact ⟨r, by rw [Option.some.inj hhead]⟩
        have hpt : (p t.1).isSome := by rw [ht]; rfl
        obtain ⟨g, hloop, hg⟩ := hsome left t r a ht
        rw [hloop]
        refine .many_cons hheads rfl ((Phrase.starts_bind_token hne).mpr hpt) (.assoc ?_)
        refine .after hp (fun _ => ⟨⟨Classical.arbitrary (exprAt l).Tree, []⟩⟩) ht ?_
        refine Reads.bind (A := exprAt l)
          (B := fun right => Phrase.Chain.steps _ (f a right left)) (lawful_exprAt u l) ?_
          (fun _ => ⟨[]⟩) (hsub r (Nat.lt_of_succ_lt hn)) ?_
        · refine Phrase.Ends.meets (P := fun t => (p t).isSome) hend fun _ => ?_
          exact hheads.begins.many.reword _
        · intro right s _
          obtain ⟨k, hk, hks⟩ := hg right s
          rw [hk]
          have hs : s.val.length < (t :: r).length := Nat.lt_succ_of_lt s.property
          exact (ih s.val.length hs s.val rfl (hs.trans hn) (f a right left)).finish
            (f := id) hks

theorem eatKeyword_none {kw : String} {ts : Tokens} (h : ∀ t ∈ ts.head?, word? kw t.1 = none) :
    eatKeyword kw ts = none := by
  rcases eatKeyword_cases kw ts with ⟨t, r, _, rfl, ht, _⟩ | ⟨heq, _⟩
  · rw [h t rfl] at ht
    cases ht
  · exact heq

theorem eatKeyword_some {kw : String} {t : Token × Nat} {r : Tokens} {a : Unit}
    (h : word? kw t.1 = some a) : ∃ hr, eatKeyword kw (t :: r) = some ⟨r, hr⟩ := by
  rcases eatKeyword_cases kw (t :: r) with ⟨t', r', hr, heq, _, hsome⟩ | ⟨_, hno⟩
  · cases heq
    exact ⟨hr, hsome⟩
  · rw [hno t rfl] at h
    cases h

theorem eatOp_none {op? : Token → Option BinaryOp} {ts : Tokens}
    (h : ∀ t ∈ ts.head?, op? t.1 = none) : eatOp op? ts = none := by
  rcases eatOp_cases op? ts with ⟨t, r, _, op, rfl, ht, _⟩ | ⟨heq, _⟩
  · rw [h t rfl] at ht
    cases ht
  · exact heq

theorem eatOp_some {op? : Token → Option BinaryOp} {t : Token × Nat} {r : Tokens} {op : BinaryOp}
    (h : op? t.1 = some op) : ∃ hr, eatOp op? (t :: r) = some (op, ⟨r, hr⟩) := by
  simp [eatOp, h]

section Levels

variable {n : Nat}

theorem reads_orLoop
    (hsub : ∀ ts, ts.length < n → (exprAt .and).Reads (Stands u) ts (andExpr u ts)) (ts : Tokens)
    (hn : ts.length < n) (left : Expr) :
    (Phrase.Chain.steps (wordStep "OR" .or .and) left).Reads (Stands u) ts (orLoop u left ts) := by
  refine reads_loop (lawful_keyword u (by decide)) hsub
    (fun d _ ht => stops_step (k := .or) (by decide) d ht) ?_ ?_ ts hn left
  · intro left ts hno
    rw [orLoop, eatKeyword_none hno]
    rfl
  · intro left t ts a ht
    obtain ⟨_, heq⟩ := eatKeyword_some (r := ts) ht
    rw [orLoop, heq]
    exact ⟨_, rfl, fun _ _ => ⟨_, rfl, fun _ _ => ⟨_, rfl⟩⟩⟩

theorem reads_andLoop
    (hsub : ∀ ts, ts.length < n → (exprAt .not).Reads (Stands u) ts (notExpr u ts)) (ts : Tokens)
    (hn : ts.length < n) (left : Expr) :
    (Phrase.Chain.steps (wordStep "AND" .and .not) left).Reads (Stands u) ts
      (andLoop u left ts) := by
  refine reads_loop (lawful_keyword u (by decide)) hsub
    (fun d _ ht => stops_step (k := .and) (by decide) d ht) ?_ ?_ ts hn left
  · intro left ts hno
    rw [andLoop, eatKeyword_none hno]
    rfl
  · intro left t ts a ht
    obtain ⟨_, heq⟩ := eatKeyword_some (r := ts) ht
    rw [andLoop, heq]
    exact ⟨_, rfl, fun _ _ => ⟨_, rfl, fun _ _ => ⟨_, rfl⟩⟩⟩

theorem reads_addLoop
    (hsub : ∀ ts, ts.length < n → (exprAt .mul).Reads (Stands u) ts (mulExpr u ts)) (ts : Tokens)
    (hn : ts.length < n) (left : Expr) :
    (Phrase.Chain.steps (opStep addOp .mul) left).Reads (Stands u) ts (addLoop u left ts) := by
  refine reads_loop (lawful_token u ⟨.plus, rfl⟩ fun _ h hl => (word?_not_operator hl).2.1 h) hsub
    (fun d _ ht => stops_step (k := .add) (by decide) d ht) ?_ ?_ ts hn left
  · intro left ts hno
    rw [addLoop, eatOp_none hno]
    rfl
  · intro left t ts a ht
    obtain ⟨_, heq⟩ := eatOp_some (r := ts) ht
    rw [addLoop, heq]
    exact ⟨_, rfl, fun _ _ => ⟨_, rfl, fun _ _ => ⟨_, rfl⟩⟩⟩

theorem reads_mulLoop
    (hsub : ∀ ts, ts.length < n → (exprAt .unary).Reads (Stands u) ts (unaryExpr u ts))
    (ts : Tokens) (hn : ts.length < n) (left : Expr) :
    (Phrase.Chain.steps (opStep mulOp .unary) left).Reads (Stands u) ts (mulLoop u left ts) := by
  refine reads_loop (lawful_token u ⟨.star, rfl⟩ fun _ h hl => (word?_not_operator hl).2.2 h) hsub
    (fun d _ ht => stops_step (k := .mul) (by decide) d ht) ?_ ?_ ts hn left
  · intro left ts hno
    rw [mulLoop, eatOp_none hno]
    rfl
  · intro left t ts a ht
    obtain ⟨_, heq⟩ := eatOp_some (r := ts) ht
    rw [mulLoop, heq]
    exact ⟨_, rfl, fun _ _ => ⟨_, rfl, fun _ _ => ⟨_, rfl⟩⟩⟩

/-- What `expectKeyword` and the loop do behind IS and perhaps NOT. -/
theorem reads_isNull {negated : Option Unit} {left : Expr} {ts : Tokens} {Q : Tokens → Prop}
    {g : Shorter ts → Except ParseError (Expr × {r : Tokens // Q r})}
    (hg : ∀ r, (Phrase.Chain.steps cmpStep (.isNull left negated.isSome)).Reads (Stands u) r.val
      (g r)) :
    ((do keyword "NULL"; return fun left => .isNull left negated.isSome :
      Phrase Token (Expr → Expr)) >>= fun f => Phrase.Chain.steps cmpStep (f left)).Reads
        (Stands u) ts (expectKeyword u "NULL" ts >>= g) := by
  refine .assoc (Reads.skip (lawful_keyword u (by decide)) (Phrase.meets_token _ _) ?_
    (reads_expectKeyword ts) fun r _ => .pure_bind (hg r))
  exact ⟨⟨(), []⟩⟩

theorem reads_cmpLoop
    (hsub : ∀ ts, ts.length < n → (exprAt .add).Reads (Stands u) ts (addExpr u ts)) :
    ∀ ts, ts.length < n → ∀ left,
      (Phrase.Chain.steps cmpStep left).Reads (Stands u) ts (cmpLoop u left ts) := by
  suffices h : ∀ m ts, ts.length = m → ts.length < n → ∀ left,
      (Phrase.Chain.steps cmpStep left).Reads (Stands u) ts (cmpLoop u left ts) from
    fun ts => h _ ts rfl
  intro m
  induction m using Nat.strong_induction_on with
  | _ m ih =>
    rintro ts rfl hn left
    rcases eatKeyword_cases "IS" ts with ⟨t, r, _, rfl, ht, heq⟩ | ⟨heq, hno⟩
    · have his : (word? "IS" t.1).isSome := by rw [ht]; rfl
      rw [cmpLoop, heq]
      refine .many_cons heads_cmpStep rfl (starts_cmpStep.mpr (.inl his)) (.either_bind ?_)
      refine .left ?_ ((heads_opStep cmpOp .add).bind _) ?_
      · refine .assoc (.after (lawful_keyword u (by decide)) ?_ ht (.assoc ?_))
        · obtain ⟨null, hnull⟩ := exists_word? "NULL"
          exact fun _ => ⟨⟨⟨none, ⟨null, hnull⟩, ()⟩, []⟩⟩
        have hnull : ∀ negated : Option Unit, Nonempty ((do
            keyword "NULL"; return fun left => .isNull left negated.isSome :
              Phrase Token (Expr → Expr)) >>= fun f => Phrase.Chain.steps cmpStep (f left)).Tree := by
          obtain ⟨null, hnull⟩ := exists_word? "NULL"
          exact fun _ => ⟨⟨⟨⟨null, hnull⟩, ()⟩, []⟩⟩
        have hlawful : (keyword "NOT").opt.Lawful (Stands u) :=
          (lawful_keyword u (by decide)).opt (Phrase.heads_token fun _ h => h)
        rcases eatKeyword_cases "NOT" r with ⟨t', r', hr', rfl, ht', heq'⟩ | ⟨heq', hno'⟩
        · have hnot := Reads.opt_token (L := Stands u) (E := ParseError) (Q := fun _ => True)
            (r := r') ht' trivial
          dsimp only
          rw [heq']
          refine hnot.bind (g := fun _ => _) hlawful (ends_optNot.meets fun _ => ?_) hnull
            fun a s hs => ?_
          · exact (((Phrase.heads_token fun _ h => h).bind _).bind _).begins
          cases hs
          refine reads_isNull fun s => ?_
          have hs : s.val.length < r'.length := s.property
          have hlen : (t :: t' :: r').length = r'.length + 2 := rfl
          exact (ih s.val.length (by omega) s.val rfl (by omega) _).finish (f := id)
            fun _ _ => ⟨_, rfl⟩
        · have hnot := Reads.opt_none (L := Stands u) (E := ParseError) (Q := fun _ => True)
            (A := keyword "NOT") (r := r) (fun t ht h => by
              rw [Phrase.starts_token, hno' t ht] at h
              cases h) trivial
          dsimp only
          rw [heq']
          refine hnot.bind (g := fun _ => _) hlawful (ends_optNot.meets fun _ => ?_) hnull
            fun a s hs => ?_
          · exact (((Phrase.heads_token fun _ h => h).bind _).bind _).begins
          cases hs
          refine reads_isNull fun s => ?_
          have hs : s.val.length < r.length := s.property
          have hlen : (t :: r).length = r.length + 1 := rfl
          exact (ih s.val.length (by omega) s.val rfl (by omega) _).finish (f := id)
            fun _ _ => ⟨_, rfl⟩
      · intro t' ht' hcmp
        obtain rfl := Option.some.inj ht'
        exact (word?_not_operator his).1 hcmp
    · rw [cmpLoop, heq]
      rcases eatOp_cases cmpOp ts with ⟨t, r, _, op, rfl, ht, heq'⟩ | ⟨heq', hno'⟩
      · have hcmp : (cmpOp t.1).isSome := by rw [ht]; rfl
        dsimp only
        rw [heq']
        refine .many_cons heads_cmpStep rfl (starts_cmpStep.mpr (.inr hcmp)) (.either_bind ?_)
        refine .right ?_ (heads_isNullStep.bind _) ?_
        · refine .assoc (.after (lawful_token u ⟨.eq, rfl⟩ ?_) ?_ ht ?_)
          · exact fun _ h hl => (word?_not_operator hl).1 h
          · exact fun _ => ⟨⟨Classical.arbitrary (exprAt .add).Tree, []⟩⟩
          refine Reads.bind (A := exprAt .add)
            (B := fun right => Phrase.Chain.steps cmpStep (.binary left op right))
            (lawful_exprAt u .add) ?_ (fun _ => ⟨[]⟩) (hsub r (Nat.lt_of_succ_lt hn)) ?_
          · refine Phrase.Ends.meets (P := Operator .cmp) ?_ fun _ =>
              heads_cmpStep.begins.many.reword _
            exact fun d _ ht => stops_step (by decide) d ht
          · intro right s _
            have hs : s.val.length < (t :: r).length := Nat.lt_succ_of_lt s.property
            exact (ih s.val.length hs s.val rfl (hs.trans hn) _).finish (f := id)
              fun _ _ => ⟨_, rfl⟩
        · intro t' ht' his
          obtain rfl := Option.some.inj ht'
          exact (word?_not_operator his).1 hcmp
      · dsimp only
        rw [heq']
        refine .many_nil (fun t ht hstart => ?_) (Nat.le_refl _) _
        rcases starts_cmpStep.mp hstart with h | h
        · rw [hno t ht] at h
          cases h
        · rw [hno' t ht] at h
          cases h

/-- All levels, read off the same tokens. -/
structure ReadsLevels (u : Unicode) (ts : Tokens) : Prop where
  or : (exprAt .or).Reads (Stands u) ts (orExpr u ts)
  and : (exprAt .and).Reads (Stands u) ts (andExpr u ts)
  not : (exprAt .not).Reads (Stands u) ts (notExpr u ts)
  cmp : (exprAt .cmp).Reads (Stands u) ts (cmpExpr u ts)
  add : (exprAt .add).Reads (Stands u) ts (addExpr u ts)
  mul : (exprAt .mul).Reads (Stands u) ts (mulExpr u ts)
  unary : (exprAt .unary).Reads (Stands u) ts (unaryExpr u ts)
  primary : (exprAt .primary).Reads (Stands u) ts (primary u ts)

/-- A literal is read as one. -/
theorem reads_literal {t : Token × Nat} {r : Tokens} {l : Literal} (ht : literal? t.1 = some l)
    (hr : r.length < (t :: r).length) : (exprAt .primary).Reads (Stands u) (t :: r)
      (.ok (.literal l, ⟨r, hr⟩) : Except ParseError (Expr × Shorter (t :: r))) := by
  refine Reads.cover (Reads.left ?_ heads_identOrParen ?_) primary_cover primaryTree_surjective
  · have hx := Reads.token (L := Stands u) (E := ParseError)
      (Q := fun s => s.length < (t :: r).length) (r := r) ht hr
    exact hx.finish (f := Expr.literal) (g := fun y => .ok (.literal y.1, y.2))
      fun _ s => ⟨s.property, rfl⟩
  · intro t' ht'
    obtain rfl := Option.some.inj ht'
    rintro (h | h)
    · exact not_ident_of_literal (by rw [ht]; rfl) h
    · rw [h] at ht
      cases ht

theorem reads_column {t : Token × Nat} {r : Tokens} {w : String} (ht : ident? t.1 = some w)
    (hr : r.length < (t :: r).length) : (exprAt .primary).Reads (Stands u) (t :: r)
      (.ok (.column w, ⟨r, hr⟩) : Except ParseError (Expr × Shorter (t :: r))) := by
  refine Reads.cover (Reads.right (Reads.left ?_ heads_paren ?_)
    (Phrase.heads_token (p := literal?) fun _ h => h) ?_) primary_cover primaryTree_surjective
  · have hx := Reads.token (L := Stands u) (E := ParseError)
      (Q := fun s => s.length < (t :: r).length) (r := r) ht hr
    exact hx.finish (f := Expr.column) (g := fun y => .ok (.column y.1, y.2))
      fun _ s => ⟨s.property, rfl⟩
  · intro t' ht' h
    obtain rfl := Option.some.inj ht'
    rw [h] at ht
    cases ht
  · intro t' ht' h
    obtain rfl := Option.some.inj ht'
    exact not_ident_of_literal h (by rw [ht]; rfl)

/-- A parenthesised expression, given a reader for what the parentheses hold. -/
theorem reads_paren {t : Token × Nat} {r : Tokens} {Q : Tokens → Prop}
    {g : Expr × Shorter r → Except ParseError (Expr × {s : Tokens // Q s})} (ht : t.1 = .lParen)
    (hor : (exprAt .or).Reads (Stands u) r (orExpr u r))
    (hg : ∀ e s, ∃ k : Shorter s.val → Except ParseError (Expr × {s : Tokens // Q s}),
      g (e, s) = expect u .rParen "`)`" s.val >>= k ∧ ∀ s', ∃ hs', k s' = .ok (e, ⟨s'.val, hs'⟩)) :
    (exprAt .primary).Reads (Stands u) (t :: r) (orExpr u r >>= g) := by
  refine Reads.cover (Reads.right (Reads.right ?_ (Phrase.heads_token (p := ident?) fun _ h => h) ?_)
    (Phrase.heads_token (p := literal?) fun _ h => h) ?_) primary_cover primaryTree_surjective
  · refine .after (lawful_symbol u not_limit_lParen) ?_ (only?_eq_some ht) ?_
    · exact fun _ => ⟨⟨Classical.arbitrary (exprAt .or).Tree, ⟨.rParen, rfl⟩, ()⟩⟩
    refine Reads.bind (lawful_expr u) ((ends_expr_symbol not_operator_rParen).meets fun _ =>
      begins_symbol _ _) (fun _ => ⟨⟨⟨.rParen, rfl⟩, ()⟩⟩) hor fun e s _ => ?_
    obtain ⟨k, hk, hks⟩ := hg e s
    rw [hk]
    refine Reads.skip (lawful_symbol u not_limit_rParen) (Phrase.meets_token _ _) ⟨()⟩
      (reads_expect _ _) fun s' _ => ?_
    obtain ⟨hs', hk'⟩ := hks s'
    rw [hk']
    exact .pure e s'.val hs'
  · intro t' ht' h
    obtain rfl := Option.some.inj ht'
    rw [ht] at h
    cases h
  · intro t' ht' h
    obtain rfl := Option.some.inj ht'
    rw [ht] at h
    cases h

theorem reads_primary {ts : Tokens}
    (ih : ∀ r, r.length < ts.length → (exprAt .or).Reads (Stands u) r (orExpr u r)) :
    (exprAt .primary).Reads (Stands u) ts (primary u ts) := by
  have hfail : (∀ t ∈ ts.head?, ¬ PrimaryHead t.1) → (exprAt .primary).Reads (Stands u) ts
      (.error (unexpected u ts "an expression") : Except ParseError (Expr × Shorter ts)) := by
    intro h
    refine .fail (stands_here _ _) (inferInstanceAs (Nonempty (exprAt .primary).Tree))
      (heads_exprAt .primary) fun t ht hhead => h t ht ?_
    rcases hhead with hp | ⟨-, hp⟩ | ⟨-, hp⟩
    · exact hp
    · exact absurd hp (by decide)
    · exact absurd hp (by decide)
  rw [primary.eq_def]
  cases ts with
  | nil => exact hfail fun _ ht => nomatch ht
  | cons t r =>
    obtain ⟨t, pos⟩ := t
    cases t with
    | integer n => exact reads_literal rfl _
    | str s => exact reads_literal rfl _
    | lParen => exact reads_paren rfl (ih r (Nat.lt_succ_self _)) fun e s => ⟨_, rfl, fun s' => ⟨_, rfl⟩⟩
    | word w =>
      dsimp only
      split
      · exact reads_literal (by simp [literal?, *]) _
      split
      · exact reads_literal (by simp [literal?, *]) _
      split
      · exact reads_literal (by simp [literal?, *]) _
      split
      · refine hfail fun t ht hhead => ?_
        obtain rfl := Option.some.inj ht
        rcases hhead with h | h | h
        · simp [literal?, *] at h
        · simp [ident?, *] at h
        · cases h
      · exact reads_column (by simp [ident?, *]) _
    | _ =>
      refine hfail fun t ht hhead => ?_
      obtain rfl := Option.some.inj ht
      rcases hhead with h | h | h <;> cases h

theorem reads_unary {ts : Tokens} (hprimary : (exprAt .primary).Reads (Stands u) ts (primary u ts))
    (ih : ∀ r, r.length < ts.length → (exprAt .unary).Reads (Stands u) r (unaryExpr u r)) :
    (exprAt .unary).Reads (Stands u) ts (unaryExpr u ts) := by
  rw [unaryExpr]
  rcases eat_cases .minus ts with ⟨t, r, _, rfl, ht, heq⟩ | ⟨heq, hno⟩
  · rw [heq]
    refine Reads.cover (Reads.left ?_ (heads_exprAt .primary) ?_) unary_cover unaryTree_surjective
    · refine .after (lawful_symbol u (fun h => nomatch h)) ?_ ht ?_
      · exact fun _ => inferInstanceAs (Nonempty (exprAt .unary).Tree)
      · exact (ih r (Nat.lt_succ_self _)).finish (f := Expr.unary .neg) fun _ _ => ⟨_, rfl⟩
    · intro t' ht'
      obtain rfl := Option.some.inj ht'
      rw [only?_isSome.mp (by rw [ht]; rfl : (only? .minus t.1).isSome)]
      exact not_head_minus
  · rw [heq]
    refine Reads.cover (Reads.right hprimary ((Phrase.heads_token fun _ h => h).bind _) ?_)
      unary_cover unaryTree_surjective
    intro t ht h
    rw [hno t ht] at h
    cases h

theorem reads_not {ts : Tokens} (hcmp : (exprAt .cmp).Reads (Stands u) ts (cmpExpr u ts))
    (ih : ∀ r, r.length < ts.length → (exprAt .not).Reads (Stands u) r (notExpr u r)) :
    (exprAt .not).Reads (Stands u) ts (notExpr u ts) := by
  rw [notExpr]
  rcases eatKeyword_cases "NOT" ts with ⟨t, r, _, rfl, ht, heq⟩ | ⟨heq, hno⟩
  · rw [heq]
    refine Reads.cover (Reads.left ?_ (heads_exprAt .cmp) ?_) not_cover notTree_surjective
    · refine .after (lawful_keyword u (by decide)) ?_ ht ?_
      · exact fun _ => inferInstanceAs (Nonempty (exprAt .not).Tree)
      · exact (ih r (Nat.lt_succ_self _)).finish (f := Expr.unary .not) fun _ _ => ⟨_, rfl⟩
    · intro t' ht'
      obtain rfl := Option.some.inj ht'
      exact not_head_not (by rw [ht]; rfl)
  · rw [heq]
    refine Reads.cover (Reads.right hcmp ((Phrase.heads_token fun _ h => h).bind _) ?_)
      not_cover notTree_surjective
    intro t ht h
    rw [hno t ht] at h
    cases h

/-- A left-recursive level: its first part is there, and the loop is read off fewer tokens. -/
theorem reads_chain {l k : Level} {X : Phrase Token (Expr → Expr)} {F : Token → Prop}
    (h : Phrase.Chain (exprAt k) X (exprAt l)) (hX : X.Heads F)
    (hSX : ∀ s t, X.Starts t → (exprAt k).Stop s t) {ts : Tokens}
    {sub : Except ParseError (Expr × Shorter ts)}
    {loop : Expr → (ts : Tokens) → Except ParseError (Expr × NotLonger ts)}
    (hsub : (exprAt k).Reads (Stands u) ts sub)
    (hloop : ∀ r, r.length < ts.length → ∀ left,
      (Phrase.Chain.steps X left).Reads (Stands u) r (loop left r))
    {g : Expr × Shorter ts → Except ParseError (Expr × Shorter ts)}
    (hg : ∀ e r, ∃ k : Expr × NotLonger r.val → Except ParseError (Expr × Shorter ts),
      g (e, r) = loop e r.val >>= k ∧ ∀ e' s, ∃ hs, k (e', s) = .ok (e', ⟨s.val, hs⟩)) :
    (exprAt l).Reads (Stands u) ts (sub >>= g) := by
  refine h.reads hX (lawful_exprAt u k) hSX hsub fun e r _ => ?_
  obtain ⟨k, hk, hks⟩ := hg e r
  rw [hk]
  exact (hloop r.val r.property e).finish (f := id) hks

theorem readsLevels (n : Nat) : ∀ ts : Tokens, ts.length = n → ReadsLevels u ts := by
  induction n using Nat.strong_induction_on with
  | _ n ih =>
    rintro ts rfl
    have hshorter : ∀ r : Tokens, r.length < ts.length → ReadsLevels u r :=
      fun r hr => ih r.length hr r rfl
    have hprimary := reads_primary fun r hr => (hshorter r hr).or
    have hunary := reads_unary hprimary fun r hr => (hshorter r hr).unary
    have hmul : (exprAt .mul).Reads (Stands u) ts (mulExpr u ts) := by
      rw [mulExpr]
      exact reads_chain mulChain (heads_opStep _ _)
        (fun s _ ht => stops_step (k := .mul) (by decide) s (starts_opStep.mp ht)) hunary
        (reads_mulLoop fun r hr => (hshorter r hr).unary) fun _ _ => ⟨_, rfl, fun _ _ => ⟨_, rfl⟩⟩
    have hadd : (exprAt .add).Reads (Stands u) ts (addExpr u ts) := by
      rw [addExpr]
      exact reads_chain addChain (heads_opStep _ _)
        (fun s _ ht => stops_step (k := .add) (by decide) s (starts_opStep.mp ht)) hmul
        (reads_addLoop fun r hr => (hshorter r hr).mul) fun _ _ => ⟨_, rfl, fun _ _ => ⟨_, rfl⟩⟩
    have hcmp : (exprAt .cmp).Reads (Stands u) ts (cmpExpr u ts) := by
      rw [cmpExpr]
      exact reads_chain cmpChain heads_cmpStep
        (fun s _ ht => stops_step (k := .cmp) (by decide) s (starts_cmpStep.mp ht)) hadd
        (reads_cmpLoop fun r hr => (hshorter r hr).add) fun _ _ => ⟨_, rfl, fun _ _ => ⟨_, rfl⟩⟩
    have hnot := reads_not hcmp fun r hr => (hshorter r hr).not
    have hand : (exprAt .and).Reads (Stands u) ts (andExpr u ts) := by
      rw [andExpr]
      exact reads_chain andChain (heads_wordStep _ _ _)
        (fun s _ ht => stops_step (k := .and) (by decide) s (starts_wordStep.mp ht)) hnot
        (reads_andLoop fun r hr => (hshorter r hr).not) fun _ _ => ⟨_, rfl, fun _ _ => ⟨_, rfl⟩⟩
    have hor : (exprAt .or).Reads (Stands u) ts (orExpr u ts) := by
      rw [orExpr]
      exact reads_chain orChain (heads_wordStep _ _ _)
        (fun s _ ht => stops_step (k := .or) (by decide) s (starts_wordStep.mp ht)) hand
        (reads_orLoop fun r hr => (hshorter r hr).and) fun _ _ => ⟨_, rfl, fun _ _ => ⟨_, rfl⟩⟩
    exact ⟨hor, hand, hnot, hcmp, hadd, hmul, hunary, hprimary⟩

theorem reads_expr (ts : Tokens) : Grammar.expr.Reads (Stands u) ts (Parser.expr u ts) :=
  (readsLevels _ ts rfl).or

end Levels

/-! ## Lists -/

theorem reads_moreItems {α : Type} {A : Phrase Token α}
    {item : (ts : Tokens) → Except ParseError (α × Shorter ts)} (hA : A.Lawful (Stands u))
    (hend : A.Ends (· = .comma)) (hitem : ∀ ts, A.Reads (Stands u) ts (item ts)) :
    ∀ ts, (do symbol .comma; A : Phrase Token α).many.Reads (Stands u) ts (moreItems item ts) := by
  suffices h : ∀ n ts, ts.length = n →
      (do symbol .comma; A : Phrase Token α).many.Reads (Stands u) ts (moreItems item ts) from
    fun ts => h _ ts rfl
  intro n
  induction n using Nat.strong_induction_on with
  | _ n ih =>
    rintro ts rfl
    have hheads : (symbol .comma >>= fun _ => A).Heads (· = .comma) :=
      (Phrase.heads_token fun _ => only?_isSome.mp).bind _
    rw [moreItems]
    rcases eat_cases .comma ts with ⟨t, r, _, rfl, ht, heq⟩ | ⟨heq, hno⟩
    · rw [heq]
      have hcomma : (only? .comma t.1).isSome := by rw [ht]; rfl
      refine Reads.many_cons (f := id) hheads rfl
        ((Phrase.starts_bind_token fun _ => hA.nonempty).mpr hcomma) (.assoc ?_)
      refine .after (lawful_symbol u not_limit_comma) ?_ ht ?_
      · exact fun _ => ⟨⟨Classical.choice hA.nonempty, []⟩⟩
      refine Reads.bind hA (meets_comma hend fun a l => a :: l) (fun _ => ⟨[]⟩) (hitem r)
        fun a s _ => ?_
      have hs : s.val.length < (t :: r).length := Nat.lt_succ_of_lt s.property
      exact (ih s.val.length hs s.val rfl).finish fun _ _ => ⟨_, rfl⟩
    · rw [heq]
      refine Reads.many_nil (f := id) (fun t ht hstart => ?_) (Nat.le_refl _)
      have hcomma := hno t ht
      rw [hheads.of_starts hstart] at hcomma
      cases hcomma

theorem reads_items {α : Type} {A : Phrase Token α}
    {item : (ts : Tokens) → Except ParseError (α × Shorter ts)} (hA : A.Lawful (Stands u))
    (hend : A.Ends (· = .comma)) (hitem : ∀ ts, A.Reads (Stands u) ts (item ts))
    (ts : Tokens) : (Grammar.items A).Reads (Stands u) ts (Parser.items item ts) := by
  refine Reads.bind hA (meets_comma hend fun a l => a :: l) (fun _ => ⟨[]⟩) (hitem ts) fun a r _ => ?_
  exact (reads_moreItems hA hend hitem r.val).finish fun _ _ => ⟨_, rfl⟩

theorem reads_identList (what : String) (ts : Tokens) :
    Grammar.identList.Reads (Stands u) ts (Parser.identList u what ts) :=
  reads_items (lawful_ident u) (Phrase.ends_token _ _) (reads_ident what) ts

/-! ## CREATE TABLE -/

theorem reads_columnType (ts : Tokens) :
    (Phrase.token columnType?).Reads (Stands u) ts (columnType u ts) := by
  rw [columnType]
  rcases eatKeyword_cases "INTEGER" ts with ⟨t, r, _, rfl, ht, heq⟩ | ⟨heq, hno⟩
  · rw [heq]
    exact .token (by simp [columnType?, ht]) _
  rcases eatKeyword_cases "TEXT" ts with ⟨t, r, _, rfl, ht, heq'⟩ | ⟨heq', hno'⟩
  · rw [heq, heq']
    exact .token (by simp [columnType?, ht, hno t rfl]) _
  rcases eatKeyword_cases "BYTES" ts with ⟨t, r, _, rfl, ht, heq''⟩ | ⟨heq'', hno''⟩
  · rw [heq, heq', heq'']
    exact .token (by simp [columnType?, ht, hno t rfl, hno' t rfl]) _
  rcases eatKeyword_cases "BOOLEAN" ts with ⟨t, r, _, rfl, ht, heq₃⟩ | ⟨heq₃, hno₃⟩
  · rw [heq, heq', heq'', heq₃]
    exact .token (by simp [columnType?, ht, hno t rfl, hno' t rfl, hno'' t rfl]) _
  · rw [heq, heq', heq'', heq₃]
    refine .no_token (stands_here _ _) ⟨.word "INTEGER", by decide⟩ fun t ht => ?_
    simp [columnType?, hno t ht, hno' t ht, hno'' t ht, hno₃ t ht]

/-- Reading on behind the second keyword of a modifier. -/
theorem reads_modifier {kw : String} {f : Bool × Bool → Bool × Bool} {m : Bool × Bool}
    {ts : Tokens} {Q : Tokens → Prop}
    {g : Shorter ts → Except ParseError ((Bool × Bool) × {r : Tokens // Q r})}
    (hkw : eqIgnoreAsciiCase kw "LIMIT" = false)
    (hg : ∀ r, (Phrase.Chain.steps modifier (f m)).Reads (Stands u) r.val (g r)) :
    ((do keyword kw; return f : Phrase Token (Bool × Bool → Bool × Bool)) >>=
      fun f => Phrase.Chain.steps modifier (f m)).Reads (Stands u) ts
        (expectKeyword u kw ts >>= g) := by
  refine .assoc (Reads.skip (lawful_keyword u hkw) (Phrase.meets_token _ _) ?_
    (reads_expectKeyword ts) fun r _ => .pure_bind (hg r))
  exact ⟨⟨(), []⟩⟩

theorem reads_modifiers : ∀ (ts : Tokens) (primaryKey notNull : Bool),
    (Phrase.Chain.steps modifier (primaryKey, notNull)).Reads (Stands u) ts
      (modifiers u primaryKey notNull ts) := by
  suffices h : ∀ n ts, ts.length = n → ∀ primaryKey notNull,
      (Phrase.Chain.steps modifier (primaryKey, notNull)).Reads (Stands u) ts
        (modifiers u primaryKey notNull ts) from fun ts => h _ ts rfl
  intro n
  induction n using Nat.strong_induction_on with
  | _ n ih =>
    rintro ts rfl primaryKey notNull
    have htree : ∀ (kw : String) (f : Bool × Bool → Bool × Bool), Nonempty
        ((do keyword kw; return f : Phrase Token (Bool × Bool → Bool × Bool)) >>=
          fun f => Phrase.Chain.steps modifier (f (primaryKey, notNull))).Tree := by
      intro kw f
      obtain ⟨t, ht⟩ := exists_word? kw
      exact ⟨⟨⟨⟨t, ht⟩, ()⟩, []⟩⟩
    rw [modifiers]
    rcases eatKeyword_cases "PRIMARY" ts with ⟨t, r, _, rfl, ht, heq⟩ | ⟨heq, hno⟩
    · rw [heq]
      have hprimary : (word? "PRIMARY" t.1).isSome := by rw [ht]; rfl
      obtain ⟨key, hkey⟩ := exists_word? "KEY"
      refine .many_cons heads_modifier rfl ⟨.inl ⟨⟨t.1, hprimary⟩, ⟨key, hkey⟩, ()⟩, rfl⟩
        (.either_bind (.left ?_ (((Phrase.heads_token fun _ h => h).bind _).bind _) ?_))
      · refine .assoc (.after (lawful_keyword u (by decide)) (fun _ => htree _ _) ht ?_)
        refine reads_modifier (by decide) fun s => ?_
        have hs : s.val.length < (t :: r).length := Nat.lt_succ_of_lt s.property
        exact (ih s.val.length hs s.val rfl true notNull).finish (f := id) fun _ _ => ⟨_, rfl⟩
      · intro t' ht' h
        obtain rfl := Option.some.inj ht'
        exact word?_ne hprimary (by decide) h
    rcases eatKeyword_cases "NOT" ts with ⟨t, r, _, rfl, ht, heq'⟩ | ⟨heq', hno'⟩
    · rw [heq]
      dsimp only
      rw [heq']
      have hnot : (word? "NOT" t.1).isSome := by rw [ht]; rfl
      obtain ⟨null, hnull⟩ := exists_word? "NULL"
      refine .many_cons heads_modifier rfl ⟨.inr ⟨⟨t.1, hnot⟩, ⟨null, hnull⟩, ()⟩, rfl⟩
        (.either_bind (.right ?_ (((Phrase.heads_token fun _ h => h).bind _).bind _) ?_))
      · refine .assoc (.after (lawful_keyword u (by decide)) (fun _ => htree _ _) ht ?_)
        refine reads_modifier (by decide) fun s => ?_
        have hs : s.val.length < (t :: r).length := Nat.lt_succ_of_lt s.property
        exact (ih s.val.length hs s.val rfl primaryKey true).finish (f := id) fun _ _ => ⟨_, rfl⟩
      · intro t' ht' h
        obtain rfl := Option.some.inj ht'
        exact word?_ne hnot (by decide) h
    · rw [heq]
      dsimp only
      rw [heq']
      refine .many_nil (fun t ht hstart => ?_) (Nat.le_refl _) _
      rcases heads_modifier.of_starts hstart with h | h
      · rw [hno t ht] at h
        cases h
      · rw [hno' t ht] at h
        cases h

theorem reads_columnSpec (ts : Tokens) :
    Grammar.columnSpec.Reads (Stands u) ts (Parser.columnSpec u ts) := by
  have hsteps := ((lawful_modifier u).many heads_modifier
    ((ends_modifier fun _ => True).meets fun _ _ _ => trivial)).reword
      (fun l => l.foldl (fun a f => f a) (false, false))
  refine Reads.bind (lawful_ident u) (Phrase.meets_token _ _) (fun _ => ?_) (reads_ident _ ts)
    fun name r _ => ?_
  · exact ⟨⟨⟨.word "INTEGER", by decide⟩, [], ()⟩⟩
  refine Reads.bind (lawful_columnType u) (Phrase.meets_token _ _) (fun _ => ⟨⟨[], ()⟩⟩)
    (reads_columnType r.val) fun ty r₁ _ => ?_
  refine Reads.bind hsteps (Phrase.meets_pure _ _) (fun _ => ⟨()⟩)
    (reads_modifiers r₁.val false false) fun m r₂ _ => ?_
  exact .pure _ r₂.val _

theorem reads_createTable (ts : Tokens) :
    Grammar.createTable.Reads (Stands u) ts (Parser.createTable u ts) := by
  refine Reads.skip (lawful_keyword u (by decide)) (Phrase.meets_token _ _) inferInstance
    (reads_expectKeyword ts) fun r _ => ?_
  refine Reads.bind (lawful_ident u) (Phrase.meets_token _ _) (fun _ => inferInstance)
    (reads_ident _ r.val) fun name r₁ _ => ?_
  refine Reads.skip (lawful_symbol u not_limit_lParen) (Phrase.meets_token _ _) inferInstance
    (reads_expect _ r₁.val) fun r₂ _ => ?_
  have hitems := reads_items (lawful_columnSpec u) (ends_columnSpec.mono fun _ => .inl)
    reads_columnSpec r₂.val
  refine Reads.bind (lawful_items u (lawful_columnSpec u) (ends_columnSpec.mono fun _ => .inl))
    ((ends_items (P := (· = .rParen)) (ends_columnSpec.mono fun _ => .inr) ?_).meets
      fun _ => begins_symbol _ _) (fun _ => inferInstance) hitems fun columns r₃ _ => ?_
  · rintro t rfl h
    cases h
  refine Reads.skip (lawful_symbol u not_limit_rParen) (Phrase.meets_token _ _) inferInstance
    (reads_expect _ r₃.val) fun r₄ _ => ?_
  exact .pure _ r₄.val _

/-! ## INSERT -/

theorem ends_items_rParen {α : Type} {A : Phrase Token α} (hA : A.Ends (· = .rParen)) :
    (Grammar.items A).Ends (· = .rParen) := by
  refine ends_items hA ?_
  rintro t rfl h
  cases h

theorem reads_valuesRow (ts : Tokens) :
    Grammar.valuesRow.Reads (Stands u) ts (Parser.valuesRow u ts) := by
  refine Reads.skip (lawful_symbol u not_limit_lParen) (Phrase.meets_token _ _) inferInstance
    (reads_expect _ ts) fun r _ => ?_
  refine Reads.bind (lawful_items u (lawful_expr u) (ends_expr_symbol not_operator_comma))
    ((ends_items_rParen (ends_expr_symbol not_operator_rParen)).meets fun _ => begins_symbol _ _)
    (fun _ => inferInstance)
    (reads_items (lawful_expr u) (ends_expr_symbol not_operator_comma) reads_expr r.val)
    fun row r₁ _ => ?_
  refine Reads.skip (lawful_symbol u not_limit_rParen) (Phrase.meets_token _ _) inferInstance
    (reads_expect _ r₁.val) fun r₂ _ => ?_
  exact .pure _ r₂.val _

/-- The columns of an INSERT. -/
theorem reads_insertColumns (ts : Tokens) :
    (do symbol .lParen; let c ← Grammar.identList; symbol .rParen; return c :
      Phrase Token (List String)).opt.Reads (Stands u) ts (match eat .lParen ts with
      | none => return (none, ⟨ts, Nat.le_refl _⟩)
      | some ⟨r₂, h₂⟩ => do
        let (c, ⟨r₃, h₃⟩) ← Parser.identList u "column name" r₂
        let ⟨r₄, h₄⟩ ← expect u .rParen "`)`" r₃
        return (some c, ⟨r₄, h₄.le.trans (h₃.le.trans h₂.le)⟩) :
        Except ParseError (Option (List String) × NotLonger ts)) := by
  have hheads : (do symbol .lParen; let c ← Grammar.identList; symbol .rParen; return c :
      Phrase Token (List String)).Heads (· = .lParen) :=
    (Phrase.heads_token fun _ => only?_isSome.mp).bind _
  rcases eat_cases .lParen ts with ⟨t, r, _, rfl, ht, heq⟩ | ⟨heq, hno⟩
  · rw [heq]
    have hstart : (only? .lParen t.1).isSome := by rw [ht]; rfl
    refine .opt_some rfl ((Phrase.starts_bind_token fun _ => inferInstance).mpr hstart) ?_
    refine Reads.after (lawful_symbol u not_limit_lParen)
      (B := fun _ => (do let c ← Grammar.identList; symbol .rParen; return some c :
        Phrase Token (Option (List String)))) (fun _ => inferInstance) ht ?_
    refine Reads.bind (lawful_items u (lawful_ident u) (Phrase.ends_token _ _))
      ((ends_items_rParen (Phrase.ends_token _ _)).meets fun _ => begins_symbol _ _)
      (fun _ => inferInstance) (reads_identList _ r) fun c r₁ _ => ?_
    refine Reads.skip (lawful_symbol u not_limit_rParen) (Phrase.meets_token _ _) inferInstance
      (reads_expect _ r₁.val) fun r₂ _ => ?_
    exact .pure _ r₂.val _
  · rw [heq]
    refine .opt_none (fun t ht hstart => ?_) (Nat.le_refl _)
    have hparen := hno t ht
    rw [hheads.of_starts hstart] at hparen
    cases hparen

theorem reads_insert (ts : Tokens) :
    Grammar.insert.Reads (Stands u) ts (Parser.insert u ts) := by
  refine Reads.skip (lawful_keyword u (by decide)) (Phrase.meets_token _ _) inferInstance
    (reads_expectKeyword ts) fun r _ => ?_
  refine Reads.bind (lawful_ident u) (Phrase.meets_token _ _) (fun _ => inferInstance)
    (reads_ident _ r.val) fun table r₁ _ => ?_
  refine Reads.bind (lawful_insertColumns u) (meets_insertColumns _) (fun _ => inferInstance)
    (reads_insertColumns r₁.val) fun columns r₂ _ => ?_
  refine Reads.skip (lawful_keyword u (by decide)) (Phrase.meets_token _ _) inferInstance
    (reads_expectKeyword r₂.val) fun r₃ _ => ?_
  refine Reads.bind (lawful_items u (lawful_valuesRow u) (ends_valuesRow _))
    (Phrase.meets_pure _ _) (fun _ => inferInstance)
    (reads_items (lawful_valuesRow u) (ends_valuesRow _) reads_valuesRow r₃.val)
    fun rows r₄ _ => ?_
  exact .pure _ r₄.val _

/-! ## SELECT, UPDATE and DELETE -/

theorem reads_optWhere (ts : Tokens) :
    Grammar.optWhere.Reads (Stands u) ts (Parser.optWhere u ts) := by
  rw [Parser.optWhere]
  rcases eatKeyword_cases "WHERE" ts with ⟨t, r, _, rfl, ht, heq⟩ | ⟨heq, hno⟩
  · rw [heq]
    have hstart : (word? "WHERE" t.1).isSome := by rw [ht]; rfl
    refine .opt_some rfl ((Phrase.starts_bind_token fun _ => inferInstance).mpr hstart) ?_
    refine Reads.after (lawful_keyword u (by decide))
      (B := fun _ => Grammar.expr.reword some) (fun _ => inferInstance) ht ?_
    exact (reads_expr r).finish fun _ _ => ⟨_, rfl⟩
  · rw [heq]
    refine .opt_none (fun t ht hstart => ?_) (Nat.le_refl _)
    have hwhere := heads_where.of_starts hstart
    rw [hno t ht] at hwhere
    cases hwhere

/-- DESC, ASC, or nothing, which is as ASC. -/
theorem reads_direction {ts : Tokens} {column : String} {Q : Tokens → Prop}
    {g : Bool → NotLonger ts → Except ParseError (Option OrderBy × {r : Tokens // Q r})}
    (hg : ∀ d r, ∃ hr, g d r = .ok (some ⟨column, d⟩, ⟨r.val, hr⟩)) :
    ((Phrase.token direction?).opt >>= fun d =>
      (pure (some ⟨column, d.getD false⟩) : Phrase Token (Option OrderBy))).Reads (Stands u) ts
        (match eatKeyword "DESC" ts with
        | some ⟨r, h⟩ => g true ⟨r, h.le⟩
        | none =>
          match eatKeyword "ASC" ts with
          | some ⟨r, h⟩ => g false ⟨r, h.le⟩
          | none => g false ⟨ts, Nat.le_refl _⟩) := by
  have hlawful : (Phrase.token direction?).opt.Lawful (Stands u) :=
    lawful_direction u
  have hread : ∀ (x : Except ParseError (Option Bool × NotLonger ts)) d r,
      (Phrase.token direction?).opt.Reads (Stands u) ts x → x = .ok (d, r) →
      ((Phrase.token direction?).opt >>= fun d =>
        (pure (some ⟨column, d.getD false⟩) : Phrase Token (Option OrderBy))).Reads (Stands u) ts
          (g (d.getD false) r) := by
    rintro x d r hx rfl
    refine hx.bind (g := fun y => g (y.1.getD false) y.2) hlawful (Phrase.meets_pure _ _)
      (fun _ => inferInstance) fun d' r' _ => ?_
    obtain ⟨hr, hgr⟩ := hg (d'.getD false) r'
    rw [hgr]
    exact .pure _ r'.val hr
  rcases eatKeyword_cases "DESC" ts with ⟨t, r, hr, rfl, ht, heq⟩ | ⟨heq, hno⟩
  · rw [heq]
    have hd : direction? t.1 = some true := by simp [direction?, ht]
    exact hread _ (some true) ⟨r, hr.le⟩ (.opt_token hd hr.le) rfl
  rcases eatKeyword_cases "ASC" ts with ⟨t, r, hr, rfl, ht, heq'⟩ | ⟨heq', hno'⟩
  · rw [heq]
    dsimp only
    rw [heq']
    have hd : direction? t.1 = some false := by simp [direction?, ht, hno t rfl]
    exact hread _ (some false) ⟨r, hr.le⟩ (.opt_token hd hr.le) rfl
  · rw [heq]
    dsimp only
    rw [heq']
    refine hread _ none ⟨ts, Nat.le_refl _⟩ (.opt_none (fun t ht hstart => ?_) (Nat.le_refl _)) rfl
    have hd := Phrase.starts_token.mp hstart
    simp [direction?, hno t ht, hno' t ht] at hd

theorem reads_optOrderBy (ts : Tokens) :
    Grammar.orderBy.opt.Reads (Stands u) ts (Parser.optOrderBy u ts) := by
  rw [Parser.optOrderBy]
  rcases eatKeyword_cases "ORDER" ts with ⟨t, r, _, rfl, ht, heq⟩ | ⟨heq, hno⟩
  · rw [heq]
    have hstart : (word? "ORDER" t.1).isSome := by rw [ht]; rfl
    refine .opt_some rfl ((Phrase.starts_bind_token fun _ => inferInstance).mpr hstart) ?_
    refine Reads.after (lawful_keyword u (by decide)) (B := fun _ => (do
      keyword "BY"
      let column ← Grammar.ident
      let descending ← (Phrase.token direction?).opt
      return some ⟨column, descending.getD false⟩ : Phrase Token (Option OrderBy)))
      (fun _ => inferInstance) ht ?_
    refine Reads.skip (lawful_keyword u (by decide)) (Phrase.meets_token _ _) inferInstance
      (reads_expectKeyword r) fun r₁ _ => ?_
    refine Reads.bind (lawful_ident u) (Phrase.meets_token _ _) (fun _ => inferInstance)
      (reads_ident _ r₁.val) fun column r₂ _ => ?_
    have h₁ := r₁.property
    have h₂ := r₂.property
    exact reads_direction (g := fun d s => .ok (some ⟨column, d⟩, ⟨s.val, by
      have := s.property
      simp only [List.length_cons]
      omega⟩)) fun d s => ⟨_, rfl⟩
  · rw [heq]
    refine .opt_none (fun t ht hstart => ?_) (Nat.le_refl _)
    have horder := heads_orderBy.of_starts hstart
    rw [hno t ht] at horder
    cases horder

theorem reads_optLimit (ts : Tokens) :
    Grammar.limit.opt.Reads (Stands u) ts (Parser.optLimit u ts) := by
  rw [Parser.optLimit]
  rcases eatKeyword_cases "LIMIT" ts with ⟨t, r, _, rfl, ht, heq⟩ | ⟨heq, hno⟩
  · rw [heq]
    have hlimit : (word? "LIMIT" t.1).isSome := by rw [ht]; rfl
    have hviable : (Grammar.limit.reword some).Viable [t.1] :=
      ⟨⟨⟨t.1, hlimit⟩, ⟨.integer 0, rfl⟩⟩, [.integer 0], rfl⟩
    have hblocked : ∀ o : Option Token, (∀ n ∈ o, limit? n = none) →
        (Grammar.limit.reword some).Blocked [t.1] o := by
      intro o ho d c c' _ hyield hhead
      have hc' : d.2.val :: c = c' := (List.cons.inj hyield).2
      have hsome := d.2.property
      rw [ho d.2.val (by rw [← hhead, ← hc']; rfl)] at hsome
      cases hsome
    refine .opt_some rfl ((Phrase.starts_bind_token fun _ => inferInstance).mpr hlimit) ?_
    rcases r with _ | ⟨⟨n, pos⟩, r⟩
    · exact .error [t] [] _ rfl (.limit [] t hlimit _) hviable (hblocked _ fun _ h => nomatch h)
    · cases n with
      | integer n =>
        exact .ok (A := Grammar.limit.reword some) ⟨⟨t.1, hlimit⟩, ⟨.integer n, rfl⟩⟩
          [t, (.integer n, pos)] ⟨r, _⟩ rfl rfl fun _ _ => ⟨trivial, fun _ => trivial⟩
      | _ =>
        refine .error [t] _ _ rfl (.here [t] _ _ fun h => nomatch h) hviable
          (hblocked _ fun n hn => ?_)
        obtain rfl := Option.some.inj hn
        rfl
  · rw [heq]
    refine .opt_none (fun t ht hstart => ?_) (Nat.le_refl _)
    have hlimit := heads_limit.of_starts hstart
    rw [isLimit, hno t ht] at hlimit
    cases hlimit

theorem reads_projection (ts : Tokens) :
    Grammar.projection.Reads (Stands u) ts (match eat .star ts with
      | some r => return (.all, r)
      | none => do
        let (names, r) ← Parser.identList u "column name or `*`" ts
        return (.columns names, r) : Except ParseError (Projection × Shorter ts)) := by
  rcases eat_cases .star ts with ⟨t, r, _, rfl, ht, heq⟩ | ⟨heq, hno⟩
  · rw [heq]
    refine .left ?_ (((Phrase.heads_token (p := ident?) fun _ h => h).bind _).reword _) ?_
    · exact .after (lawful_symbol u (fun h => nomatch h)) (fun _ => inferInstance) ht (.pure _ r _)
    · intro t' ht' h
      obtain rfl := Option.some.inj ht'
      rw [only?_isSome.mp (by rw [ht]; rfl : (only? .star t.1).isSome)] at h
      cases h
  · rw [heq]
    refine .right ?_ ((Phrase.heads_token fun _ h => h).bind _) ?_
    · exact (reads_identList _ ts).finish fun _ r => ⟨r.property, rfl⟩
    · intro t ht h
      rw [hno t ht] at h
      cases h

theorem reads_select (ts : Tokens) :
    Grammar.select.Reads (Stands u) ts (Parser.select u ts) := by
  refine Reads.bind (lawful_projection u) (meets_projection _) (fun _ => inferInstance)
    (reads_projection ts) fun projection r _ => ?_
  refine Reads.skip (lawful_keyword u (by decide)) (Phrase.meets_token _ _) inferInstance
    (reads_expectKeyword r.val) fun r₁ _ => ?_
  refine Reads.bind (lawful_ident u) (Phrase.meets_token _ _) (fun _ => inferInstance)
    (reads_ident _ r₁.val) fun table r₂ _ => ?_
  refine Reads.bind (lawful_optWhere u) (meets_optWhere _) (fun _ => inferInstance)
    (reads_optWhere r₂.val) fun filter r₃ _ => ?_
  refine Reads.bind ((lawful_orderBy u).opt heads_orderBy) (meets_orderBy _)
    (fun _ => inferInstance) (reads_optOrderBy r₃.val) fun orderBy r₄ _ => ?_
  refine Reads.bind ((lawful_limit u).opt heads_limit) (Phrase.meets_pure _ _)
    (fun _ => inferInstance) (reads_optLimit r₄.val) fun limit r₅ _ => ?_
  exact .pure _ r₅.val _

theorem reads_assignment (ts : Tokens) :
    Grammar.assignment.Reads (Stands u) ts (Parser.assignment u ts) := by
  refine Reads.bind (lawful_ident u) (Phrase.meets_token _ _) (fun _ => inferInstance)
    (reads_ident _ ts) fun col r _ => ?_
  refine Reads.skip (lawful_symbol u not_limit_eq) (Phrase.meets_token _ _) inferInstance
    (reads_expect _ r.val) fun r₁ _ => ?_
  refine Reads.bind (lawful_expr u) (Phrase.meets_pure _ _) (fun _ => inferInstance)
    (reads_expr r₁.val) fun e r₂ _ => ?_
  exact .pure _ r₂.val _

theorem reads_update (ts : Tokens) :
    Grammar.update.Reads (Stands u) ts (Parser.update u ts) := by
  refine Reads.bind (lawful_ident u) (Phrase.meets_token _ _) (fun _ => inferInstance)
    (reads_ident _ ts) fun table r _ => ?_
  refine Reads.skip (lawful_keyword u (by decide)) (Phrase.meets_token _ _) inferInstance
    (reads_expectKeyword r.val) fun r₁ _ => ?_
  refine Reads.bind (lawful_assignments u) (meets_assignments _) (fun _ => inferInstance)
    (reads_items (lawful_assignment u) (ends_assignment.mono fun _ ht => ht ▸ not_operator_comma)
      reads_assignment r₁.val) fun assignments r₂ _ => ?_
  refine Reads.bind (lawful_optWhere u) (Phrase.meets_pure _ _) (fun _ => inferInstance)
    (reads_optWhere r₂.val) fun filter r₃ _ => ?_
  exact .pure _ r₃.val _

theorem reads_delete (ts : Tokens) :
    Grammar.delete.Reads (Stands u) ts (Parser.delete u ts) := by
  refine Reads.skip (lawful_keyword u (by decide)) (Phrase.meets_token _ _) inferInstance
    (reads_expectKeyword ts) fun r _ => ?_
  refine Reads.bind (lawful_ident u) (Phrase.meets_token _ _) (fun _ => inferInstance)
    (reads_ident _ r.val) fun table r₁ _ => ?_
  refine Reads.bind (lawful_optWhere u) (Phrase.meets_pure _ _) (fun _ => inferInstance)
    (reads_optWhere r₁.val) fun filter r₂ _ => ?_
  exact .pure _ r₂.val _

/-! ## Statements -/

theorem reads_after {t : Token × Nat} {r : Tokens} (v : Verb) (ht : verb? t.1 = some v)
    {p : (ts : Tokens) → Except ParseError (Statement × Shorter ts)}
    (hp : ∀ ts, (body v).Reads (Stands u) ts (p ts)) (hr : r.length < (t :: r).length) :
    Grammar.statement.Reads (Stands u) (t :: r) (@after (t :: r) ⟨r, hr⟩ p) := by
  refine .after (lawful_verb u) (fun v => (lawful_body u v).nonempty) ht ?_
  exact (hp r).finish (f := id) fun _ _ => ⟨_, rfl⟩

theorem reads_statement (ts : Tokens) :
    Grammar.statement.Reads (Stands u) ts (Parser.statement u ts) := by
  have hend : ∀ {t : Token × Nat} {r : Tokens} {v : Verb} {s : Statement} (ht : verb? t.1 = some v)
      (hs : body v = pure s) (hr : r.length < (t :: r).length),
      Grammar.statement.Reads (Stands u) (t :: r)
        (.ok (s, ⟨r, hr⟩) : Except ParseError (Statement × Shorter (t :: r))) := by
    intro t r v s ht hs hr
    refine .after (lawful_verb u) (fun v => (lawful_body u v).nonempty) ht ?_
    rw [hs]
    exact .pure s r hr
  rw [Parser.statement]
  rcases eatKeyword_cases "CREATE" ts with ⟨t, r, _, rfl, ht, h₁⟩ | ⟨h₁, n₁⟩
  · rw [h₁]
    exact reads_after .create (by simp [verb?, ht]) reads_createTable _
  rw [h₁]
  dsimp only
  rcases eatKeyword_cases "INSERT" ts with ⟨t, r, _, rfl, ht, h₂⟩ | ⟨h₂, n₂⟩
  · rw [h₂]
    exact reads_after .insert (by simp [verb?, ht, n₁ t rfl]) reads_insert _
  rw [h₂]
  dsimp only
  rcases eatKeyword_cases "SELECT" ts with ⟨t, r, _, rfl, ht, h₃⟩ | ⟨h₃, n₃⟩
  · rw [h₃]
    exact reads_after .select (by simp [verb?, ht, n₁ t rfl, n₂ t rfl]) reads_select _
  rw [h₃]
  dsimp only
  rcases eatKeyword_cases "UPDATE" ts with ⟨t, r, _, rfl, ht, h₄⟩ | ⟨h₄, n₄⟩
  · rw [h₄]
    exact reads_after .update (by simp [verb?, ht, n₁ t rfl, n₂ t rfl, n₃ t rfl]) reads_update _
  rw [h₄]
  dsimp only
  rcases eatKeyword_cases "DELETE" ts with ⟨t, r, _, rfl, ht, h₅⟩ | ⟨h₅, n₅⟩
  · rw [h₅]
    exact reads_after .delete (by simp [verb?, ht, n₁ t rfl, n₂ t rfl, n₃ t rfl, n₄ t rfl]) reads_delete _
  rw [h₅]
  dsimp only
  rcases eatKeyword_cases "BEGIN" ts with ⟨t, r, _, rfl, ht, h₆⟩ | ⟨h₆, n₆⟩
  · rw [h₆]
    have hv : verb? t.1 = some .begin := by
      simp [verb?, ht, n₁ t rfl, n₂ t rfl, n₃ t rfl, n₄ t rfl, n₅ t rfl]
    exact hend hv rfl _
  rw [h₆]
  dsimp only
  rcases eatKeyword_cases "COMMIT" ts with ⟨t, r, _, rfl, ht, h₇⟩ | ⟨h₇, n₇⟩
  · rw [h₇]
    have hv : verb? t.1 = some .commit := by
      simp [verb?, ht, n₁ t rfl, n₂ t rfl, n₃ t rfl, n₄ t rfl, n₅ t rfl, n₆ t rfl]
    exact hend hv rfl _
  rw [h₇]
  dsimp only
  rcases eatKeyword_cases "ROLLBACK" ts with ⟨t, r, _, rfl, ht, h₈⟩ | ⟨h₈, n₈⟩
  · rw [h₈]
    have hv : verb? t.1 = some .rollback := by
      simp [verb?, ht, n₁ t rfl, n₂ t rfl, n₃ t rfl, n₄ t rfl, n₅ t rfl, n₆ t rfl, n₇ t rfl]
    exact hend hv rfl _
  rw [h₈]
  refine .fail (stands_here ts _) (lawful_statement u).nonempty
    ((Phrase.heads_token (p := verb?) fun _ h => h).bind _) fun t ht h => ?_
  simp [verb?, n₁ t ht, n₂ t ht, n₃ t ht, n₄ t ht, n₅ t ht, n₆ t ht, n₇ t ht, n₈ t ht] at h

/-! ## Scripts -/

/-- What may follow a statement: nothing, or a semicolon and a script. -/
abbrev scriptTail : Phrase Token (List Statement) where
  Tree := Option ScriptTree
  yield d := (d.map fun d => .semicolon :: d.yield).getD []
  value d := (d.map ScriptTree.statements).getD []
  Stop _ _ := False

def scriptTree (d : (Grammar.statement >>= fun s => scriptTail.reword (s :: ·)).Tree) : ScriptTree :=
  d.2.elim (.last d.1) (.next d.1)

theorem stops_false {α : Type} {A : Phrase Token α} (hA : ∀ d t, ¬ A.Stop d t) {d : A.Tree}
    {c : List Token} (h : A.Stops d c) : c = [] := by
  cases c with
  | nil => rfl
  | cons t c => exact (hA d t (Phrase.stops_cons.mp h)).elim

/-- Where a script does not start with a semicolon, it is empty or starts with a statement. -/
theorem scriptTree_cover : Phrase.Cover
    (Grammar.statement >>= fun s => scriptTail.reword (s :: ·)) script scriptTree where
  yield := by
    rintro ⟨s, _ | d⟩
    · exact (List.append_nil _).symm
    · rfl
  value := by rintro ⟨s, _ | d⟩ <;> rfl
  stop := by
    rintro ⟨s, _ | d⟩ t
    · exact ⟨False.elim, And.left⟩
    · exact ⟨False.elim, And.left⟩

theorem meets_scriptTail :
    Grammar.statement.Meets fun s => scriptTail.reword (s :: ·) := by
  refine ends_statement.meets fun s => ?_
  rintro t ⟨_ | d, hd⟩
  · cases hd
  · exact (Option.some.inj hd).symm

/-- A script leaves no tokens. -/
abbrev whole (x : Except ParseError (List Statement)) :
    Except ParseError (List Statement × {r : Tokens // r = []}) :=
  x.map fun s => (s, ⟨[], rfl⟩)

theorem statements_semicolon (pos : Nat) (r : Tokens) :
    Parser.statements u ((.semicolon, pos) :: r) = Parser.statements u r := by
  rw [Parser.statements.eq_def]
  rfl

theorem statements_nil : Parser.statements u [] = .ok [] := by
  rw [Parser.statements.eq_def]
  rfl

/-- What the parser does behind a statement. -/
def scriptRest (u : Unicode) (s : Statement) (r : Tokens) : Except ParseError (List Statement) :=
  match r with
  | [] | (.semicolon, _) :: _ => return s :: (← Parser.statements u r)
  | _ => .error (unexpected u r "`;` or end of input")

theorem statements_statement {t : Token} {pos : Nat} {r : Tokens} (ht : t ≠ .semicolon) :
    Parser.statements u ((t, pos) :: r) =
      Parser.statement u ((t, pos) :: r) >>= fun y => scriptRest u y.1 y.2.val := by
  rw [Parser.statements.eq_def]
  simp only [eat, ht, if_false]
  rfl

/-- Reading a script behind a semicolon. -/
theorem reads_semicolon {r : Tokens} {Q : Tokens → Prop}
    {x : Except ParseError (List Statement × {s : Tokens // Q s})} (pos : Nat)
    (hx : script.Reads (Stands u) r x) :
    (symbol .semicolon >>= fun _ => script).Reads (Stands u) ((.semicolon, pos) :: r) x :=
  .after (lawful_symbol u (fun h => nomatch h)) (fun _ => ⟨ScriptTree.done⟩) rfl hx

theorem reads_scriptRest (s : Statement) (r : Tokens)
    (ih : ∀ r', r'.length < r.length →
      script.Reads (Stands u) r' (whole (Parser.statements u r'))) :
    (scriptTail.reword (s :: ·)).Reads (Stands u) r (whole (scriptRest u s r)) := by
  rcases r with _ | ⟨⟨t, pos⟩, r⟩
  · have hnil : scriptRest u s [] = .ok [s] := by
      rw [scriptRest, statements_nil]
      rfl
    rw [hnil]
    have hx : (scriptTail.reword (s :: ·)).Reads (Stands u) []
        (.ok ([s], ⟨[], rfl⟩) : Except ParseError (List Statement × {r : Tokens // r = []})) :=
      .ok (A := scriptTail.reword (s :: ·)) (Q := (· = [])) none [] ⟨[], rfl⟩ rfl rfl
        fun _ ht => by cases ht
    exact hx
  by_cases ht : t = .semicolon
  · subst ht
    have hrest : whole (scriptRest u s ((.semicolon, pos) :: r)) =
        whole (Parser.statements u r) >>= fun y => .ok (s :: y.1, y.2) := by
      rw [scriptRest, statements_semicolon]
      cases Parser.statements u r <;> rfl
    have hx := (reads_semicolon pos (ih r (Nat.lt_succ_self _))).finish (f := (s :: ·))
      (g := fun y => .ok (s :: y.1, y.2)) fun _ r' => ⟨r'.property, rfl⟩
    rw [hrest]
    let tree : ((symbol .semicolon >>= fun _ => script).reword (s :: ·)).Tree →
        (scriptTail.reword (s :: ·)).Tree := fun d => some d.2
    refine Reads.choose (C := scriptTail.reword (s :: ·)) (f := tree) hx ⟨?_, ?_, ?_⟩ ?_
    · rintro ⟨⟨t, h⟩, d⟩
      obtain rfl := only?_isSome.mp h
      rfl
    · exact fun _ => rfl
    · exact fun _ _ => ⟨False.elim, And.left⟩
    · rintro (_ | d) c hd hs hhead
      · rw [stops_false (fun _ _ => id) hs] at hhead
        cases hhead
      · exact hd ⟨⟨.semicolon, rfl⟩, d⟩ rfl
  · have herror : scriptRest u s ((t, pos) :: r) =
        .error (unexpected u ((t, pos) :: r) "`;` or end of input") := by
      cases t <;> first | rfl | exact absurd rfl ht
    rw [herror]
    refine .error [] _ _ rfl (stands_here _ _) ⟨none, [], rfl⟩ ?_
    rintro (_ | d) c c' hs hyield hhead
    · have hc : c = c' := hyield
      rw [← hc, stops_false (fun _ _ => id) hs] at hhead
      cases hhead
    · have hc : .semicolon :: (d.yield ++ c) = c' := hyield
      rw [← hc] at hhead
      exact ht (Option.some.inj hhead).symm

/-- **The parser reads the grammar**: a script it accepts is the one that some derivation of all
the tokens stands for, and it stops at the first token that no derivation goes on with. -/
theorem reads_statements (ts : Tokens) :
    script.Reads (Stands u) ts (whole (Parser.statements u ts)) := by
  suffices h : ∀ n ts, ts.length = n →
      script.Reads (Stands u) ts (whole (Parser.statements u ts)) from h _ ts rfl
  intro n
  induction n using Nat.strong_induction_on with
  | _ n ih =>
    rintro ts rfl
    rcases ts with _ | ⟨⟨t, pos⟩, r⟩
    · rw [statements_nil]
      have hx : script.Reads (Stands u) []
          (.ok ([], ⟨[], rfl⟩) : Except ParseError (List Statement × {r : Tokens // r = []})) :=
        .ok (A := script) (Q := (· = [])) .done [] ⟨[], rfl⟩ rfl rfl fun _ ht => nomatch ht
      exact hx
    -- A script that starts with a semicolon is one behind it, any other a statement and its rest.
    by_cases ht : t = .semicolon
    · subst ht
      rw [statements_semicolon]
      let tree : (symbol .semicolon >>= fun _ => script).Tree → ScriptTree :=
        fun d => .semicolon d.2
      refine (reads_semicolon pos (ih r.length (Nat.lt_succ_self _) r rfl)).choose (C := script)
        (f := tree) ⟨?_, ?_, ?_⟩ ?_
      · rintro ⟨⟨t, h⟩, d⟩
        obtain rfl := only?_isSome.mp h
        rfl
      · exact fun _ => rfl
      · exact fun _ _ => ⟨False.elim, And.left⟩
      · rintro (_ | d | s | ⟨s, d⟩) c hd hs hhead
        · rw [stops_false (fun _ _ => id) hs] at hhead
          cases hhead
        · exact hd ⟨⟨.semicolon, rfl⟩, d⟩ rfl
        · obtain ⟨t, ht, -, hverb⟩ := heads_statement.head_append s c
          exact not_semicolon_of_verb hverb (Option.some.inj (ht.symm.trans hhead))
        · obtain ⟨t, ht, -, hverb⟩ :=
            heads_statement.head_append s (.semicolon :: d.yield ++ c)
          rw [← List.append_assoc] at ht
          exact not_semicolon_of_verb hverb (Option.some.inj (ht.symm.trans hhead))
    · have hwhole : whole (Parser.statements u ((t, pos) :: r)) =
          Parser.statement u ((t, pos) :: r) >>= fun y => whole (scriptRest u y.1 y.2.val) := by
        rw [statements_statement ht]
        cases Parser.statement u ((t, pos) :: r) <;> rfl
      rw [hwhole]
      have hx := Reads.bind (lawful_statement u) meets_scriptTail (fun _ => ⟨none⟩)
        (reads_statement ((t, pos) :: r)) (g := fun y => whole (scriptRest u y.1 y.2.val))
        fun s r' _ => reads_scriptRest s r'.val fun r'' hr'' =>
          ih r''.length (hr''.trans r'.property) r'' rfl
      refine hx.choose (C := script) scriptTree_cover ?_
      rintro (_ | d | s | ⟨s, d⟩) c hd hs hhead
      · rw [stops_false (fun _ _ => id) hs] at hhead
        cases hhead
      · exact ht (Option.some.inj hhead).symm
      · exact hd ⟨s, none⟩ rfl
      · exact hd ⟨s, some d⟩ rfl

end Choam
