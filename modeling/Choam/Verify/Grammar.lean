import Choam.Lib.Reading
import Choam.Sql.Grammar

/-!
# The grammar is unambiguous

One token decides every choice that the grammar leaves: the operators of two levels differ, a NOT
or a minus tells a prefix from what it may stand in front of, and a keyword or a separator tells
whether an optional or repeated part is there. So every phrase is `Lawful`.

`Stands` is where an error is reported. That is the token that is not as expected, or the end of
the input, but for one case: behind a LIMIT at the end of the input it is that LIMIT.
-/

namespace Choam

open Choam.Parser (Tokens cmpOp addOp mulOp unexpected)

namespace Grammar

/-! ## Keywords -/

theorem word?_isSome {kw : String} {t : Token} :
    (word? kw t).isSome ↔ ∃ w, t = .word w ∧ eqIgnoreAsciiCase w kw := by
  constructor
  · intro h
    cases t with
    | word w =>
      refine ⟨w, rfl, ?_⟩
      by_contra hw
      simp [word?, hw] at h
    | _ => cases h
  · rintro ⟨w, rfl, hw⟩
    simp [word?, hw]

/-- A word is at most one keyword. -/
theorem word?_inj {kw kw' : String} {t : Token} (h : (word? kw t).isSome)
    (h' : (word? kw' t).isSome) : eqIgnoreAsciiCase kw kw' := by
  obtain ⟨w, rfl, hw⟩ := word?_isSome.mp h
  obtain ⟨w', heq, hw'⟩ := word?_isSome.mp h'
  cases heq
  simp only [eqIgnoreAsciiCase, beq_iff_eq] at hw hw' ⊢
  exact hw.symm.trans hw'

theorem isKeyword_of_word? {kw w : String} (hkw : kw ∈ keywords)
    (h : (word? kw (.word w)).isSome) : isKeyword w := by
  obtain ⟨w', heq, hw⟩ := word?_isSome.mp h
  cases heq
  simp only [isKeyword, List.any_eq_true]
  refine ⟨kw, hkw, ?_⟩
  simp only [eqIgnoreAsciiCase, beq_iff_eq] at hw ⊢
  exact hw.symm

/-- A token that is the keyword `kw` is no other one. -/
theorem word?_ne {kw kw' : String} {t : Token} (h : (word? kw t).isSome)
    (hne : eqIgnoreAsciiCase kw kw' = false) : ¬ (word? kw' t).isSome := by
  intro h'
  rw [word?_inj h h'] at hne
  cases hne

theorem exists_word? (kw : String) : ∃ t, (word? kw t).isSome :=
  ⟨.word kw, word?_isSome.mpr ⟨kw, rfl, by simp [eqIgnoreAsciiCase]⟩⟩

instance (kw : String) : Nonempty (keyword kw).Tree :=
  let ⟨t, ht⟩ := exists_word? kw
  ⟨⟨t, ht⟩⟩

instance : Nonempty ident.Tree := ⟨⟨.word "t", by decide⟩⟩

theorem only?_isSome {want t : Token} : (only? want t).isSome ↔ t = want := by
  by_cases h : t = want <;> simp [only?, h]

instance (want : Token) : Nonempty (symbol want).Tree := ⟨⟨want, only?_isSome.mpr rfl⟩⟩

theorem only?_eq_some {want t : Token} (h : t = want) : only? want t = some () := by
  simp [only?, h]

/-! ## Operators -/

theorem operator_of_word {t : Token} {w : String} {l : Level} (ht : t = .word w)
    (h : Operator l t) : (l = .or ∧ (word? "OR" t).isSome) ∨ (l = .and ∧ (word? "AND" t).isSome) ∨
      (l = .cmp ∧ (word? "IS" t).isSome) := by
  subst ht
  cases l <;> simp_all [Operator, cmpOp, addOp, mulOp]

/-- An operator stands at one level only. -/
theorem operator_inj {l l' : Level} {t : Token} (h : Operator l t) (h' : Operator l' t) :
    l = l' := by
  by_cases hw : ∃ w, t = .word w
  · obtain ⟨w, hw⟩ := hw
    have hOA : eqIgnoreAsciiCase "OR" "AND" = false := by decide
    have hOI : eqIgnoreAsciiCase "OR" "IS" = false := by decide
    have hAI : eqIgnoreAsciiCase "AND" "IS" = false := by decide
    rcases operator_of_word hw h with ⟨hl, g⟩ | ⟨hl, g⟩ | ⟨hl, g⟩ <;>
      rcases operator_of_word hw h' with ⟨hl', g'⟩ | ⟨hl', g'⟩ | ⟨hl', g'⟩
    · exact hl.trans hl'.symm
    · exact (word?_ne g hOA g').elim
    · exact (word?_ne g hOI g').elim
    · exact (word?_ne g' hOA g).elim
    · exact hl.trans hl'.symm
    · exact (word?_ne g hAI g').elim
    · exact (word?_ne g' hOI g).elim
    · exact (word?_ne g' hAI g).elim
    · exact hl.trans hl'.symm
  · cases t with
    | word w => exact (hw ⟨w, rfl⟩).elim
    | _ => cases l <;> cases l' <;> simp_all [Operator, cmpOp, addOp, mulOp, word?]

/-- A tree of a level ends where no operator that binds at least as tightly follows. -/
theorem ExprTree.stop_of {l : Level} (e : ExprTree l) {t : Token}
    (h : ∀ k, l.rank ≤ k.rank → ¬ Operator k t) : e.Stop t := by
  induction e with
  | literal l => trivial
  | column name => trivial
  | paren => trivial
  | ofCmp e ih => exact ih fun k hk => h k (Nat.le_trans (by decide) hk)
  | not _ e ih => exact ih h
  | ofPrimary e ih => exact ih fun k hk => h k (Nat.le_trans (by decide) hk)
  | neg _ e ih => exact ih h
  | isNull => exact h .cmp (by decide)
  | ofAnd e ih => exact ⟨ih fun k hk => h k (Nat.le_trans (by decide) hk), h .or (by decide)⟩
  | or _ _ _ _ ih => exact ⟨ih fun k hk => h k (Nat.le_trans (by decide) hk), h .or (by decide)⟩
  | ofNot e ih => exact ⟨ih fun k hk => h k (Nat.le_trans (by decide) hk), h .and (by decide)⟩
  | and _ _ _ _ ih =>
    exact ⟨ih fun k hk => h k (Nat.le_trans (by decide) hk), h .and (by decide)⟩
  | ofAdd e ih => exact ⟨ih fun k hk => h k (Nat.le_trans (by decide) hk), h .cmp (by decide)⟩
  | cmp _ _ _ _ ih =>
    exact ⟨ih fun k hk => h k (Nat.le_trans (by decide) hk), h .cmp (by decide)⟩
  | ofMul e ih => exact ⟨ih fun k hk => h k (Nat.le_trans (by decide) hk), h .add (by decide)⟩
  | add _ _ _ _ ih =>
    exact ⟨ih fun k hk => h k (Nat.le_trans (by decide) hk), h .add (by decide)⟩
  | ofUnary e ih => exact ⟨ih fun k hk => h k (Nat.le_trans (by decide) hk), h .mul (by decide)⟩
  | mul _ _ _ _ ih =>
    exact ⟨ih fun k hk => h k (Nat.le_trans (by decide) hk), h .mul (by decide)⟩

/-- A tree of a tighter level ends in front of an operator. -/
theorem ExprTree.stop_of_operator {l k : Level} (e : ExprTree l) {t : Token} (h : Operator k t)
    (hk : k.rank < l.rank) : e.Stop t := by
  refine e.stop_of fun k' hk' h' => ?_
  obtain rfl := operator_inj h h'
  omega

/-! ## First tokens -/

/-- What a primary starts with. -/
def PrimaryHead (t : Token) : Prop := (literal? t).isSome ∨ (ident? t).isSome ∨ t = .lParen

/-- What an expression of a level starts with. -/
def Head (l : Level) (t : Token) : Prop :=
  PrimaryHead t ∨ (t = .minus ∧ l.rank ≤ Level.unary.rank) ∨
    ((word? "NOT" t).isSome ∧ l.rank ≤ Level.not.rank)

theorem Head.mono {l k : Level} {t : Token} (h : Head k t) (hlk : l.rank ≤ k.rank) : Head l t := by
  rcases h with h | ⟨h, hk⟩ | ⟨h, hk⟩
  · exact .inl h
  · exact .inr (.inl ⟨h, hlk.trans hk⟩)
  · exact .inr (.inr ⟨h, hlk.trans hk⟩)

theorem heads_exprAt (l : Level) : (exprAt l).Heads (Head l) := by
  intro e
  -- The left side of an operator, or the next level, starts where the tree does.
  have hleft : ∀ {k m : Level} {ts : List Token} (us : List Token), m.rank ≤ k.rank →
      (∃ t ∈ ts.head?, Head k t) → ∃ t ∈ (ts ++ us).head?, Head m t := by
    rintro k m ts us hkm ⟨t, ht, hhead⟩
    refine ⟨t, ?_, hhead.mono hkm⟩
    rw [Option.mem_def] at ht ⊢
    rw [List.head?_append, ht, Option.some_or]
  induction e with
  | literal l => exact ⟨l.val, rfl, .inl (.inl l.property)⟩
  | column name => exact ⟨name.val, rfl, .inl (.inr (.inl name.property))⟩
  | paren left => exact ⟨left.val, rfl, .inl (.inr (.inr (only?_isSome.mp left.property)))⟩
  | not kw => exact ⟨kw.val, rfl, .inr (.inr ⟨kw.property, le_rfl⟩)⟩
  | neg minus => exact ⟨minus.val, rfl, .inr (.inl ⟨only?_isSome.mp minus.property, le_rfl⟩)⟩
  | or l kw r ih _ => exact hleft _ le_rfl ih
  | and l kw r ih _ => exact hleft _ le_rfl ih
  | cmp l op r ih _ => exact hleft _ le_rfl ih
  | isNull l is negated null ih => exact hleft _ le_rfl ih
  | add l op r ih _ => exact hleft _ le_rfl ih
  | mul l op r ih _ => exact hleft _ le_rfl ih
  | ofAnd e ih | ofNot e ih | ofCmp e ih | ofAdd e ih | ofMul e ih | ofUnary e ih
  | ofPrimary e ih =>
    obtain ⟨t, ht, hhead⟩ := ih
    exact ⟨t, ht, hhead.mono (by decide)⟩

/-! ## Levels -/

/-- A primary as an expression of any level. -/
def ExprTree.lift (e : ExprTree .primary) : (l : Level) → ExprTree l
  | .primary => e
  | .unary => .ofPrimary e
  | .mul => .ofUnary (.ofPrimary e)
  | .add => .ofMul (.ofUnary (.ofPrimary e))
  | .cmp => .ofAdd (.ofMul (.ofUnary (.ofPrimary e)))
  | .not => .ofCmp (.ofAdd (.ofMul (.ofUnary (.ofPrimary e))))
  | .and => .ofNot (.ofCmp (.ofAdd (.ofMul (.ofUnary (.ofPrimary e)))))
  | .or => .ofAnd (.ofNot (.ofCmp (.ofAdd (.ofMul (.ofUnary (.ofPrimary e))))))

instance (l : Level) : Nonempty (exprAt l).Tree :=
  ⟨ExprTree.lift (.literal ⟨.integer 0, rfl⟩) l⟩

instance : Nonempty (Phrase.token columnType?).Tree := ⟨⟨.word "INTEGER", by decide⟩⟩

instance : Nonempty columnSpec.Tree := ⟨⟨⟨.word "t", by decide⟩, ⟨.word "TEXT", by decide⟩, [], ()⟩⟩

instance : Nonempty (Phrase.token limit?).Tree := ⟨⟨.integer 0, rfl⟩⟩

/-- A keyword and the right side of its operator. -/
abbrev wordStep (kw : String) (op : BinaryOp) (l : Level) : Phrase Token (Expr → Expr) :=
  keyword kw >>= fun _ => (exprAt l).reword fun r left => .binary left op r

/-- An operator and its right side. -/
abbrev opStep (op? : Token → Option BinaryOp) (l : Level) : Phrase Token (Expr → Expr) :=
  Phrase.token op? >>= fun op => (exprAt l).reword fun r left => .binary left op r

abbrev isNullStep : Phrase Token (Expr → Expr) := do
  keyword "IS"
  let negated ← (keyword "NOT").opt
  keyword "NULL"
  return fun left => .isNull left negated.isSome

abbrev cmpStep : Phrase Token (Expr → Expr) := isNullStep.either (opStep cmpOp .add)

theorem starts_wordStep {kw : String} {op : BinaryOp} {l : Level} {t : Token} :
    (wordStep kw op l).Starts t ↔ (word? kw t).isSome :=
  Phrase.starts_bind_token fun _ => inferInstanceAs (Nonempty (exprAt l).Tree)

theorem starts_opStep {op? : Token → Option BinaryOp} {l : Level} {t : Token} :
    (opStep op? l).Starts t ↔ (op? t).isSome :=
  Phrase.starts_bind_token fun _ => inferInstanceAs (Nonempty (exprAt l).Tree)

theorem heads_wordStep (kw : String) (op : BinaryOp) (l : Level) :
    (wordStep kw op l).Heads fun t => (word? kw t).isSome :=
  (Phrase.heads_token fun _ h => h).bind _

theorem heads_opStep (op? : Token → Option BinaryOp) (l : Level) :
    (opStep op? l).Heads fun t => (op? t).isSome :=
  (Phrase.heads_token fun _ h => h).bind _

theorem heads_isNullStep : isNullStep.Heads fun t => (word? "IS" t).isSome :=
  (Phrase.heads_token fun _ h => h).bind _

theorem heads_cmpStep : cmpStep.Heads (Operator .cmp) :=
  Phrase.heads_either (heads_isNullStep.mono fun _ => .inl) ((heads_opStep _ _).mono fun _ => .inr)

theorem starts_cmpStep {t : Token} : cmpStep.Starts t ↔ Operator .cmp t := by
  constructor
  · intro h
    exact heads_cmpStep.of_starts h
  · rintro (h | h)
    · obtain ⟨null, hnull⟩ := exists_word? "NULL"
      exact ⟨.inl ⟨⟨t, h⟩, none, ⟨null, hnull⟩, ()⟩, rfl⟩
    · obtain ⟨d, hd⟩ := starts_opStep (l := .add).mpr h
      exact ⟨.inr d, hd⟩

section Chains

variable {α : Type}

open Phrase (Chain)

/-- One more step at the end of a chain. -/
theorem chains_snoc {S : Phrase Token Expr} {X : Phrase Token (Expr → Expr)} {l : Level}
    {up : S.Tree → ExprTree l} {step : ExprTree l → X.Tree → ExprTree l} {c : ExprTree l}
    (h : ∃ s, ∃ xs : List X.Tree, c = xs.foldl step (up s)) (x : X.Tree) :
    ∃ s, ∃ xs : List X.Tree, step c x = xs.foldl step (up s) := by
  obtain ⟨s, xs, rfl⟩ := h
  exact ⟨s, xs ++ [x], by rw [List.foldl_append]; rfl⟩

theorem step_stop {p : Token → Option α} {l : Level} {f : α → Expr → Expr → Expr}
    (x : (Phrase.token p >>= fun a => (exprAt l).reword (f a)).Tree) (t : Token) :
    (Phrase.token p >>= fun a => (exprAt l).reword (f a)).Stop x t ↔ x.2.Stop t :=
  ⟨fun h => h.1, fun h => ⟨h, fun _ => trivial⟩⟩

theorem or_chains : (c : ExprTree .or) → ∃ s, ∃ xs : List (wordStep "OR" .or .and).Tree,
    c = xs.foldl (fun c x => .or c x.1 x.2) (.ofAnd s)
  | .ofAnd e => ⟨e, [], rfl⟩
  | .or l op r => by
    have h := chains_snoc (S := exprAt .and) (X := wordStep "OR" .or .and) (or_chains l) ⟨op, r⟩
    exact h

def orChain : Chain (exprAt .and) (wordStep "OR" .or .and) (exprAt .or) where
  up := .ofAnd
  step c x := .or c x.1 x.2
  yield_up _ := rfl
  yield_step _ _ := rfl
  value_up _ := rfl
  value_step _ _ := rfl
  stop_up s t := by
    rw [starts_wordStep]
    rfl
  stop_step c x t := by
    rw [starts_wordStep, step_stop]
    rfl
  chains := or_chains

theorem and_chains : (c : ExprTree .and) → ∃ s, ∃ xs : List (wordStep "AND" .and .not).Tree,
    c = xs.foldl (fun c x => .and c x.1 x.2) (.ofNot s)
  | .ofNot e => ⟨e, [], rfl⟩
  | .and l op r => by
    have h := chains_snoc (S := exprAt .not) (X := wordStep "AND" .and .not) (and_chains l) ⟨op, r⟩
    exact h

def andChain : Chain (exprAt .not) (wordStep "AND" .and .not) (exprAt .and) where
  up := .ofNot
  step c x := .and c x.1 x.2
  yield_up _ := rfl
  yield_step _ _ := rfl
  value_up _ := rfl
  value_step _ _ := rfl
  stop_up s t := by
    rw [starts_wordStep]
    rfl
  stop_step c x t := by
    rw [starts_wordStep, step_stop]
    rfl
  chains := and_chains

theorem add_chains : (c : ExprTree .add) → ∃ s, ∃ xs : List (opStep addOp .mul).Tree,
    c = xs.foldl (fun c x => .add c x.1 x.2) (.ofMul s)
  | .ofMul e => ⟨e, [], rfl⟩
  | .add l op r => by
    have h := chains_snoc (S := exprAt .mul) (X := opStep addOp .mul) (add_chains l) ⟨op, r⟩
    exact h

def addChain : Chain (exprAt .mul) (opStep addOp .mul) (exprAt .add) where
  up := .ofMul
  step c x := .add c x.1 x.2
  yield_up _ := rfl
  yield_step _ _ := rfl
  value_up _ := rfl
  value_step _ _ := rfl
  stop_up s t := by
    rw [starts_opStep]
    rfl
  stop_step c x t := by
    rw [starts_opStep, step_stop]
    rfl
  chains := add_chains

theorem mul_chains : (c : ExprTree .mul) → ∃ s, ∃ xs : List (opStep mulOp .unary).Tree,
    c = xs.foldl (fun c x => .mul c x.1 x.2) (.ofUnary s)
  | .ofUnary e => ⟨e, [], rfl⟩
  | .mul l op r => by
    have h := chains_snoc (S := exprAt .unary) (X := opStep mulOp .unary) (mul_chains l) ⟨op, r⟩
    exact h

def mulChain : Chain (exprAt .unary) (opStep mulOp .unary) (exprAt .mul) where
  up := .ofUnary
  step c x := .mul c x.1 x.2
  yield_up _ := rfl
  yield_step _ _ := rfl
  value_up _ := rfl
  value_step _ _ := rfl
  stop_up s t := by
    rw [starts_opStep]
    rfl
  stop_step c x t := by
    rw [starts_opStep, step_stop]
    rfl
  chains := mul_chains

/-- A comparison or IS NULL behind the left side. -/
def cmpTree (c : ExprTree .cmp) : cmpStep.Tree → ExprTree .cmp
  | .inl x => .isNull c x.1 x.2.1 x.2.2.1
  | .inr x => .cmp c x.1 x.2

theorem cmp_chains : (c : ExprTree .cmp) → ∃ s, ∃ xs : List cmpStep.Tree,
    c = xs.foldl cmpTree (.ofAdd s)
  | .ofAdd e => ⟨e, [], rfl⟩
  | .cmp l op r => by
    have h := chains_snoc (S := exprAt .add) (X := cmpStep) (cmp_chains l) (.inr ⟨op, r⟩)
    exact h
  | .isNull l is negated null => by
    have h := chains_snoc (S := exprAt .add) (X := cmpStep) (cmp_chains l)
      (.inl ⟨is, negated, null, ()⟩)
    exact h

def cmpChain : Chain (exprAt .add) cmpStep (exprAt .cmp) where
  up := .ofAdd
  step := cmpTree
  yield_up _ := rfl
  yield_step c x := by
    cases x with
    | inl x =>
      change c.yield ++ _ :: (_ ++ [_]) = c.yield ++ ([_] ++ (_ ++ ([_] ++ [])))
      rfl
    | inr x => rfl
  value_up _ := rfl
  value_step c x := by
    cases x with
    | inl x =>
      obtain ⟨is, negated, null, _⟩ := x
      cases negated <;> rfl
    | inr x => rfl
  stop_up s t := by
    rw [starts_cmpStep]
    rfl
  stop_step c x t := by
    rw [starts_cmpStep]
    cases x with
    | inl x =>
      change ¬ Operator .cmp t ↔ isNullStep.Stop x t ∧ ¬ Operator .cmp t
      refine ⟨fun h => ⟨?_, h⟩, And.right⟩
      exact ⟨⟨⟨trivial, fun _ => trivial⟩, fun h => (nomatch h)⟩, fun _ => trivial⟩
    | inr x =>
      change (x.2.Stop t ∧ ¬ Operator .cmp t) ↔ (opStep cmpOp .add).Stop x t ∧ ¬ Operator .cmp t
      rw [step_stop]
  chains := cmp_chains

end Chains

/-! ## Prefixes and primaries -/

abbrev notForms : Phrase Token Expr :=
  Phrase.either (keyword "NOT" >>= fun _ => (exprAt .not).reword (.unary .not)) (exprAt .cmp)

def notTree : notForms.Tree → ExprTree .not
  | .inl x => .not x.1 x.2
  | .inr e => .ofCmp e

abbrev unaryForms : Phrase Token Expr :=
  Phrase.either (symbol .minus >>= fun _ => (exprAt .unary).reword (.unary .neg)) (exprAt .primary)

def unaryTree : unaryForms.Tree → ExprTree .unary
  | .inl x => .neg x.1 x.2
  | .inr e => .ofPrimary e

abbrev paren : Phrase Token Expr := do
  symbol .lParen
  let e ← expr
  symbol .rParen
  return e

abbrev primaryForms : Phrase Token Expr :=
  Phrase.either ((Phrase.token literal?).reword .literal) (Phrase.either (ident.reword .column) paren)

def primaryTree : primaryForms.Tree → ExprTree .primary
  | .inl l => .literal l
  | .inr (.inl name) => .column name
  | .inr (.inr x) => .paren x.1 x.2.1 x.2.2.1

theorem not_cover : Phrase.Cover notForms (exprAt .not) notTree where
  yield d := by cases d <;> rfl
  value d := by cases d <;> rfl
  stop d t := by
    cases d with
    | inl x => exact ⟨fun h => ⟨h, fun _ => trivial⟩, And.left⟩
    | inr e => rfl

theorem unary_cover : Phrase.Cover unaryForms (exprAt .unary) unaryTree where
  yield d := by cases d <;> rfl
  value d := by cases d <;> rfl
  stop d t := by
    cases d with
    | inl x => exact ⟨fun h => ⟨h, fun _ => trivial⟩, And.left⟩
    | inr e => rfl

theorem primary_cover : Phrase.Cover primaryForms (exprAt .primary) primaryTree where
  yield d := by
    rcases d with l | name | x <;> rfl
  value d := by
    rcases d with l | name | x <;> rfl
  stop d t := by
    rcases d with l | name | x
    · rfl
    · rfl
    · refine ⟨fun _ => ?_, fun _ => trivial⟩
      exact ⟨⟨⟨trivial, fun _ => trivial⟩, fun h => nomatch h⟩, fun _ => trivial⟩

theorem notTree_surjective : notTree.Surjective
  | .not kw e => ⟨.inl ⟨kw, e⟩, rfl⟩
  | .ofCmp e => ⟨.inr e, rfl⟩

theorem unaryTree_surjective : unaryTree.Surjective
  | .neg minus e => ⟨.inl ⟨minus, e⟩, rfl⟩
  | .ofPrimary e => ⟨.inr e, rfl⟩

theorem primaryTree_surjective : primaryTree.Surjective
  | .literal l => ⟨.inl l, rfl⟩
  | .column name => ⟨.inr (.inl name), rfl⟩
  | .paren left e right => ⟨.inr (.inr ⟨left, e, right, ()⟩), rfl⟩

theorem not_ident_of_word? {kw : String} {t : Token} (hkw : kw ∈ keywords)
    (h : (word? kw t).isSome) : ¬ (ident? t).isSome := by
  obtain ⟨w, rfl, -⟩ := word?_isSome.mp h
  simp [ident?, isKeyword_of_word? hkw h]

/-- A literal is a number, a text, or one of three keywords. -/
theorem literal?_word {w : String} (h : (literal? (.word w)).isSome) :
    (word? "NULL" (.word w)).isSome ∨ (word? "TRUE" (.word w)).isSome ∨
      (word? "FALSE" (.word w)).isSome := by
  by_contra hne
  simp only [not_or, word?_isSome, Token.word.injEq, exists_eq_left', Bool.not_eq_true] at hne
  obtain ⟨h₁, h₂, h₃⟩ := hne
  simp [literal?, h₁, h₂, h₃] at h

theorem not_ident_of_literal {t : Token} (h : (literal? t).isSome) : ¬ (ident? t).isSome := by
  cases t with
  | word w =>
    rcases literal?_word h with h | h | h
    · exact not_ident_of_word? (by decide) h
    · exact not_ident_of_word? (by decide) h
    · exact not_ident_of_word? (by decide) h
  | _ => simp [ident?]

theorem not_literal_of_word? {kw : String} {t : Token} (h : (word? kw t).isSome)
    (h₁ : eqIgnoreAsciiCase kw "NULL" = false) (h₂ : eqIgnoreAsciiCase kw "TRUE" = false)
    (h₃ : eqIgnoreAsciiCase kw "FALSE" = false) : ¬ (literal? t).isSome := by
  intro hlit
  obtain ⟨w, rfl, -⟩ := word?_isSome.mp h
  rcases literal?_word hlit with h' | h' | h'
  · exact word?_ne h h₁ h'
  · exact word?_ne h h₂ h'
  · exact word?_ne h h₃ h'

/-- A keyword other than NULL, TRUE and FALSE starts no primary. -/
theorem not_primaryHead_of_word? {kw : String} {t : Token} (h : (word? kw t).isSome)
    (hkw : kw ∈ keywords) (h₁ : eqIgnoreAsciiCase kw "NULL" = false)
    (h₂ : eqIgnoreAsciiCase kw "TRUE" = false) (h₃ : eqIgnoreAsciiCase kw "FALSE" = false) :
    ¬ PrimaryHead t := by
  rintro (hp | hp | rfl)
  · exact not_literal_of_word? h h₁ h₂ h₃ hp
  · exact not_ident_of_word? hkw h hp
  · cases h

theorem heads_paren : paren.Heads (· = .lParen) :=
  (Phrase.heads_token fun _ => only?_isSome.mp).bind _

theorem heads_identOrParen : (Phrase.either (ident.reword .column) paren).Heads
    fun t => (ident? t).isSome ∨ t = .lParen :=
  Phrase.heads_either ((Phrase.heads_token (p := ident?) fun _ h => h).mono fun _ => .inl)
    (heads_paren.mono fun _ => .inr)

theorem not_operator_rParen (l : Level) : ¬ Operator l .rParen := by
  cases l <;> simp [Operator, word?, cmpOp, addOp, mulOp]

/-- An expression ends where no operator follows. -/
theorem ends_expr : expr.Ends fun t => ∀ l, ¬ Operator l t :=
  fun d _ ht => d.stop_of fun k _ => ht k

theorem not_head_minus : ¬ Head .primary .minus := by
  rintro ((h | h | h) | ⟨-, h⟩ | ⟨h, -⟩)
  · cases h
  · cases h
  · cases h
  · exact absurd h (by decide)
  · cases h

/-- What is behind a NOT, if not another one, does not start with NOT. -/
theorem not_head_not {t : Token} (ht : (word? "NOT" t).isSome) : ¬ Head .cmp t := by
  rintro (h | ⟨rfl, -⟩ | ⟨-, h⟩)
  · exact not_primaryHead_of_word? ht (by decide) (by decide) (by decide) (by decide) h
  · cases ht
  · exact absurd h (by decide)

/-- An operator of level `k` ends the trees of the levels that bind more tightly. -/
theorem stops_step {l k : Level} (hk : k.rank < l.rank) (e : ExprTree l) {t : Token}
    (ht : Operator k t) : e.Stop t :=
  e.stop_of_operator ht hk

/-- A comparison ends in front of another one. -/
theorem cmpStep_stop (x : cmpStep.Tree) {t : Token} (ht : Operator .cmp t) : cmpStep.Stop x t := by
  cases x with
  | inl x => exact ⟨⟨⟨trivial, fun _ => trivial⟩, fun h => nomatch h⟩, fun _ => trivial⟩
  | inr x => exact (step_stop x t).mpr (stops_step (by decide) x.2 ht)

theorem word?_not_operator {kw : String} {t : Token} (h : (word? kw t).isSome) :
    ¬ (cmpOp t).isSome ∧ ¬ (addOp t).isSome ∧ ¬ (mulOp t).isSome := by
  obtain ⟨w, rfl, -⟩ := word?_isSome.mp h
  simp [cmpOp, addOp, mulOp]

/-- NULL is not NOT. -/
theorem ends_optNot : (keyword "NOT").opt.Ends fun t => (word? "NULL" t).isSome :=
  Phrase.Ends.opt (Phrase.ends_token _ _) fun _ hnot hnull =>
    word?_ne hnull (by decide) (Phrase.starts_token.mp hnot)

theorem unambiguous_cmpStep {n : Nat} (h : (opStep cmpOp .add).Unambiguous n) :
    cmpStep.Unambiguous n := by
  refine Phrase.Unambiguous.either ?_ h heads_isNullStep (heads_opStep _ _)
    fun _ h => (word?_not_operator h).1
  refine (Phrase.unambiguous_token _ _).bind (Phrase.meets_token _ _) fun _ => ?_
  refine Phrase.Unambiguous.bind (Phrase.Unambiguous.opt (Phrase.unambiguous_token _ _)
    (Phrase.heads_token fun _ h => h)) (ends_optNot.meets fun _ => ?_) fun _ => ?_
  · exact ((Phrase.heads_token fun _ h => h).bind _).begins
  · refine (Phrase.unambiguous_token _ _).bind (Phrase.meets_token _ _) fun _ => ?_
    exact Phrase.unambiguous_pure _ _

/-- The tokens of an expression tell its tree. -/
theorem unambiguous_exprAt (n : Nat) : ∀ l, (exprAt l).Unambiguous n := by
  induction n with
  | zero => exact fun l d d' c c' _ _ _ hlen => absurd hlen (Nat.not_lt_zero _)
  | succ n ih =>
    -- Behind its first token a part has at most `n` tokens.
    have hbehind : ∀ {α β : Type} (p : Token → Option α) (l : Level) (f : α → Expr → β),
        (Phrase.token p >>= fun a => (exprAt l).reword (f a)).Unambiguous (n + 1) := by
      intro α β p l f
      exact (Phrase.unambiguous_token p _).bind (Phrase.meets_token p _) fun _ => ih l
    have hparen : paren.Unambiguous (n + 1) := by
      refine (Phrase.unambiguous_token _ _).bind (Phrase.meets_token _ _) fun _ => ?_
      refine (ih .or).bind (ends_expr.meets fun e => ?_) fun e => ?_
      · refine (Phrase.Begins.mono (Phrase.heads_token fun _ => only?_isSome.mp).begins ?_).bind
          fun _ => Phrase.begins_pure _ _
        rintro t rfl
        exact not_operator_rParen
      · refine (Phrase.unambiguous_token _ _).bind (Phrase.meets_token _ _) fun _ => ?_
        exact Phrase.unambiguous_pure _ _
    have hprimary : (exprAt .primary).Unambiguous (n + 1) := by
      refine Phrase.Unambiguous.cover ?_ primary_cover primaryTree_surjective
      refine Phrase.Unambiguous.either (Phrase.unambiguous_token literal? _) ?_
        (Phrase.heads_token (p := literal?) fun _ h => h) heads_identOrParen ?_
      · refine Phrase.Unambiguous.either (Phrase.unambiguous_token ident? _) hparen
          (Phrase.heads_token (p := ident?) fun _ h => h) heads_paren ?_
        rintro t h rfl
        cases h
      · rintro t h (h' | rfl)
        · exact not_ident_of_literal h h'
        · cases h
    have hunary : (exprAt .unary).Unambiguous (n + 1) := by
      refine Phrase.Unambiguous.cover ?_ unary_cover unaryTree_surjective
      refine Phrase.Unambiguous.either (hbehind _ _ _) hprimary
        ((Phrase.heads_token fun _ => only?_isSome.mp).bind _) (heads_exprAt .primary) ?_
      rintro t rfl h
      exact not_head_minus h
    have hmul : (exprAt .mul).Unambiguous (n + 1) :=
      mulChain.unambiguous (heads_opStep _ _) hunary (hbehind _ _ _)
        (fun s _ ht => stops_step (k := .mul) (by decide) s (starts_opStep.mp ht))
        (fun x _ ht => (step_stop x _).mpr
          (stops_step (k := .mul) (by decide) x.2 (starts_opStep.mp ht)))
    have hadd : (exprAt .add).Unambiguous (n + 1) :=
      addChain.unambiguous (heads_opStep _ _) hmul (hbehind _ _ _)
        (fun s _ ht => stops_step (k := .add) (by decide) s (starts_opStep.mp ht))
        (fun x _ ht => (step_stop x _).mpr
          (stops_step (k := .add) (by decide) x.2 (starts_opStep.mp ht)))
    have hcmp : (exprAt .cmp).Unambiguous (n + 1) :=
      cmpChain.unambiguous heads_cmpStep hadd (unambiguous_cmpStep (hbehind _ _ _))
        (fun s _ ht => stops_step (k := .cmp) (by decide) s (starts_cmpStep.mp ht))
        (fun x _ ht => cmpStep_stop x (starts_cmpStep.mp ht))
    have hnot : (exprAt .not).Unambiguous (n + 1) := by
      refine Phrase.Unambiguous.cover ?_ not_cover notTree_surjective
      refine Phrase.Unambiguous.either (hbehind _ _ _) hcmp
        ((Phrase.heads_token fun _ h => h).bind _) (heads_exprAt .cmp) ?_
      intro t h h'
      exact not_head_not h h'
    have hand : (exprAt .and).Unambiguous (n + 1) :=
      andChain.unambiguous (heads_wordStep _ _ _) hnot (hbehind _ _ _)
        (fun s _ ht => stops_step (k := .and) (by decide) s (starts_wordStep.mp ht))
        (fun x _ ht => (step_stop x _).mpr
          (stops_step (k := .and) (by decide) x.2 (starts_wordStep.mp ht)))
    have hor : (exprAt .or).Unambiguous (n + 1) :=
      orChain.unambiguous (heads_wordStep _ _ _) hand (hbehind _ _ _)
        (fun s _ ht => stops_step (k := .or) (by decide) s (starts_wordStep.mp ht))
        (fun x _ ht => (step_stop x _).mpr
          (stops_step (k := .or) (by decide) x.2 (starts_wordStep.mp ht)))
    rintro (_ | _ | _ | _ | _ | _ | _ | _)
    · exact hor
    · exact hand
    · exact hnot
    · exact hcmp
    · exact hadd
    · exact hmul
    · exact hunary
    · exact hprimary

/-! ## Where errors stand -/

def isLimit (t : Token) : Prop := (word? "LIMIT" t).isSome

/-- Behind the tokens `p`, at the tokens `r`, the error `e` is reported. -/
inductive Stands (u : Unicode) : Tokens → Tokens → ParseError → Prop
  | here (p r : Tokens) (expected : String) (h : r = [] → ∀ t ∈ p.getLast?, ¬ isLimit t.1) :
      Stands u p r (unexpected u r expected)
  /-- At the end of the input, behind a LIMIT. -/
  | limit (p : Tokens) (t : Token × Nat) (ht : isLimit t.1) (expected : String) :
      Stands u (p ++ [t]) [] (unexpected u [t] expected)

variable {u : Unicode}

theorem Stands.cons {t : Token × Nat} {p r : Tokens} {e : ParseError} (h : Stands u p r e)
    (ht : ¬ isLimit t.1) : Stands u (t :: p) r e := by
  cases h with
  | limit p t' ht' expected => exact .limit (t :: p) t' ht' expected
  | here _ _ expected h =>
    refine .here _ _ _ fun hr t' ht' => ?_
    cases p with
    | nil =>
      obtain rfl := Option.some.inj ht'
      exact ht
    | cons a p => exact h hr t' ht'

theorem carries_of_all {α : Type} {A : Phrase Token α} (hA : A.All fun t => ¬ isLimit t) :
    A.Carries (Stands u) := by
  intro d w p r e hw hat
  have hall : ∀ t ∈ w, ¬ isLimit t.1 := by
    intro t ht
    refine hA d t.1 ?_
    rw [← hw]
    exact List.mem_map_of_mem ht
  clear hw
  induction w with
  | nil => exact hat
  | cons t w ih =>
    exact (ih fun t' ht' => hall t' (List.mem_cons_of_mem t ht')).cons (hall t List.mem_cons_self)

/-! ## The phrases are lawful -/

variable (u)

theorem lawful_token {α : Type} {p : Token → Option α} (hne : ∃ t, (p t).isSome)
    (h : ∀ t, (p t).isSome → ¬ isLimit t) : (Phrase.token p).Lawful (Stands u) :=
  Phrase.lawful_token hne fun t _ _ _ ht hat => hat.cons (h t.1 ht)

theorem lawful_keyword {kw : String} (h : eqIgnoreAsciiCase kw "LIMIT" = false) :
    (keyword kw).Lawful (Stands u) :=
  lawful_token u (exists_word? kw) fun _ ht => word?_ne ht h

theorem lawful_symbol {want : Token} (h : ¬ isLimit want) : (symbol want).Lawful (Stands u) :=
  lawful_token u ⟨want, only?_isSome.mpr rfl⟩ fun _ ht => only?_isSome.mp ht ▸ h

theorem lawful_ident : ident.Lawful (Stands u) :=
  lawful_token u ⟨.word "t", by decide⟩ fun _ ht hlimit =>
    not_ident_of_word? (by decide) hlimit ht

/-- What every token of an expression is. -/
theorem all_exprAt {P : Token → Prop} (hhead : ∀ t, Head .or t → P t) (hright : P .rParen)
    (hnull : ∀ t, (word? "NULL" t).isSome → P t) (hop : ∀ l t, Operator l t → P t) (l : Level) :
    (exprAt l).All P := by
  have hprimary : ∀ t, PrimaryHead t → P t := fun t ht => hhead t (.inl ht)
  have hnot : ∀ t, (word? "NOT" t).isSome → P t :=
    fun t ht => hhead t (.inr (.inr ⟨ht, by decide⟩))
  intro d
  induction d with
  | ofAnd e ih | ofNot e ih | ofCmp e ih | ofAdd e ih | ofMul e ih | ofUnary e ih
  | ofPrimary e ih => exact ih
  | literal l => exact Phrase.all_token (fun t ht => hprimary t (.inl ht)) l
  | column name => exact Phrase.all_token (fun t ht => hprimary t (.inr (.inl ht))) name
  | not kw e ih => exact List.forall_mem_cons.mpr ⟨hnot _ kw.property, ih⟩
  | neg minus e ih =>
    refine List.forall_mem_cons.mpr ⟨?_, ih⟩
    exact hhead _ (.inr (.inl ⟨only?_isSome.mp minus.property, by decide⟩))
  | paren left e right ih =>
    refine List.forall_mem_cons.mpr ⟨?_, List.forall_mem_append.mpr ⟨ih, ?_⟩⟩
    · exact hprimary _ (.inr (.inr (only?_isSome.mp left.property)))
    · rw [List.forall_mem_singleton, only?_isSome.mp right.property]
      exact hright
  | or l kw r ihl ihr =>
    exact List.forall_mem_append.mpr ⟨ihl, List.forall_mem_cons.mpr ⟨hop .or _ kw.property, ihr⟩⟩
  | and l kw r ihl ihr =>
    exact List.forall_mem_append.mpr
      ⟨ihl, List.forall_mem_cons.mpr ⟨hop .and _ kw.property, ihr⟩⟩
  | cmp l op r ihl ihr =>
    exact List.forall_mem_append.mpr
      ⟨ihl, List.forall_mem_cons.mpr ⟨hop .cmp _ (.inr op.property), ihr⟩⟩
  | add l op r ihl ihr =>
    exact List.forall_mem_append.mpr
      ⟨ihl, List.forall_mem_cons.mpr ⟨hop .add _ op.property, ihr⟩⟩
  | mul l op r ihl ihr =>
    exact List.forall_mem_append.mpr
      ⟨ihl, List.forall_mem_cons.mpr ⟨hop .mul _ op.property, ihr⟩⟩
  | isNull l is negated null ih =>
    refine List.forall_mem_append.mpr ⟨ih, List.forall_mem_cons.mpr
      ⟨hop .cmp _ (.inl is.property), List.forall_mem_append.mpr ⟨?_, ?_⟩⟩⟩
    · exact Phrase.All.opt (Phrase.all_token hnot) negated
    · exact List.forall_mem_singleton.mpr (hnull _ null.property)

theorem not_limit_head (t : Token) (ht : Head .or t) : ¬ isLimit t := by
  intro h
  rcases ht with ht | ⟨rfl, -⟩ | ⟨ht, -⟩
  · exact not_primaryHead_of_word? h (by decide) (by decide) (by decide) (by decide) ht
  · cases h
  · exact word?_ne ht (by decide) h

theorem word?_not_mulOp {kw : String} {t : Token} (h : (word? kw t).isSome) (l : Level)
    (hor : eqIgnoreAsciiCase kw "OR" = false) (hand : eqIgnoreAsciiCase kw "AND" = false)
    (his : eqIgnoreAsciiCase kw "IS" = false) : ¬ Operator l t := by
  intro hop
  obtain ⟨w, rfl, -⟩ := word?_isSome.mp h
  rcases operator_of_word rfl hop with ⟨-, h'⟩ | ⟨-, h'⟩ | ⟨-, h'⟩
  · exact word?_ne h hor h'
  · exact word?_ne h hand h'
  · exact word?_ne h his h'

theorem lawful_exprAt (l : Level) : (exprAt l).Lawful (Stands u) where
  nonempty := inferInstanceAs (Nonempty (exprAt l).Tree)
  unambiguous n := unambiguous_exprAt n l
  carries := by
    refine carries_of_all (all_exprAt not_limit_head (fun h => nomatch h) ?_ ?_ l)
    · exact fun t ht => word?_ne ht (by decide)
    · exact fun l t ht h => word?_not_mulOp h l (by decide) (by decide) (by decide) ht

/-- What no item of a list goes on with can follow it, a comma apart. -/
theorem ends_items {α : Type} {A : Phrase Token α} {P : Token → Prop} (hA : A.Ends P)
    (hP : ∀ t, P t → t ≠ .comma) : (items A).Ends P := by
  refine hA.bind fun a => Phrase.Ends.many ?_ ?_
  · exact (Phrase.ends_token _ _).bind fun _ => hA
  · refine Phrase.Begins.mono ((Phrase.heads_token fun _ => only?_isSome.mp).bind _).begins ?_
    rintro t rfl h
    exact hP _ h rfl

theorem begins_symbol {α : Type} (want : Token) (B : Unit → Phrase Token α) :
    (symbol want >>= B).Begins (· = want) :=
  ((Phrase.heads_token fun _ => only?_isSome.mp).bind _).begins

theorem begins_keyword {α : Type} (kw : String) (B : Unit → Phrase Token α) :
    (keyword kw >>= B).Begins fun t => (word? kw t).isSome :=
  ((Phrase.heads_token fun _ h => h).bind _).begins

theorem begins_comma {α : Type} (A : Phrase Token α) :
    (symbol .comma >>= fun _ => A).Begins (· = .comma) :=
  ((Phrase.heads_token fun _ => only?_isSome.mp).bind _).begins

theorem not_limit_comma : ¬ isLimit .comma := fun h => nomatch h

theorem not_limit_lParen : ¬ isLimit .lParen := fun h => nomatch h

theorem not_limit_eq : ¬ isLimit .eq := fun h => nomatch h

theorem not_limit_rParen : ¬ isLimit .rParen := fun h => nomatch h

theorem lawful_comma {α : Type} {A : Phrase Token α} (hA : A.Lawful (Stands u)) :
    (symbol .comma >>= fun _ => A).Lawful (Stands u) :=
  (lawful_symbol u not_limit_comma).bind (Phrase.meets_token _ _) fun _ => hA

theorem meets_comma {α β : Type} {A : Phrase Token α} (hA : A.Ends (· = .comma))
    (f : α → List α → β) :
    A.Meets fun a => (symbol .comma >>= fun _ => A).many.reword (f a) :=
  hA.meets fun _ => (begins_comma A).many.reword _

theorem lawful_items {α : Type} {A : Phrase Token α} (hA : A.Lawful (Stands u))
    (hend : A.Ends (· = .comma)) : (items A).Lawful (Stands u) := by
  refine hA.bind (meets_comma hend _) fun a => ?_
  refine ((lawful_comma u hA).many (F := (· = .comma)) ?_ ?_).reword _
  · exact (Phrase.heads_token fun _ => only?_isSome.mp).bind _
  · exact Phrase.Ends.meets ((Phrase.ends_token _ _).bind fun _ => hend) fun _ => begins_comma A

/-! ## The phrases of statements -/

theorem columnType?_isSome {t : Token} (h : (columnType? t).isSome) :
    ∃ kw ∈ ["INTEGER", "TEXT", "BYTES", "BOOLEAN"], (word? kw t).isSome := by
  by_contra hne
  simp only [List.mem_cons, List.not_mem_nil, or_false, exists_eq_or_imp, exists_eq_left,
    not_or] at hne
  simp [columnType?, hne] at h

theorem lawful_columnType : (Phrase.token columnType?).Lawful (Stands u) := by
  refine lawful_token u ⟨.word "INTEGER", by decide⟩ fun t ht hlimit => ?_
  obtain ⟨kw, hkw, h⟩ := columnType?_isSome ht
  have hne : ∀ kw ∈ ["INTEGER", "TEXT", "BYTES", "BOOLEAN"],
      eqIgnoreAsciiCase kw "LIMIT" = false := by decide
  exact word?_ne h (hne kw hkw) hlimit

theorem heads_modifier :
    modifier.Heads fun t => (word? "PRIMARY" t).isSome ∨ (word? "NOT" t).isSome :=
  Phrase.heads_either (((Phrase.heads_token fun _ => .inl).bind _))
    ((Phrase.heads_token fun _ => .inr).bind _)

theorem ends_modifier (P : Token → Prop) : modifier.Ends P := by
  intro d t _
  rcases d with d | d
  · exact ⟨⟨trivial, fun _ => trivial⟩, fun _ => trivial⟩
  · exact ⟨⟨trivial, fun _ => trivial⟩, fun _ => trivial⟩

theorem lawful_modifier : modifier.Lawful (Stands u) := by
  refine Phrase.Lawful.either ?_ ?_ ((Phrase.heads_token fun _ h => h).bind _)
    ((Phrase.heads_token fun _ h => h).bind _) fun t h => word?_ne h (by decide)
  · refine (lawful_keyword u (by decide)).bind (Phrase.meets_token _ _) fun _ => ?_
    refine (lawful_keyword u (by decide)).bind (Phrase.meets_token _ _) fun _ => ?_
    exact Phrase.lawful_pure _
  · refine (lawful_keyword u (by decide)).bind (Phrase.meets_token _ _) fun _ => ?_
    refine (lawful_keyword u (by decide)).bind (Phrase.meets_token _ _) fun _ => ?_
    exact Phrase.lawful_pure _

theorem lawful_columnSpec : columnSpec.Lawful (Stands u) := by
  refine (lawful_ident u).bind (Phrase.meets_token _ _) fun _ => ?_
  refine (lawful_columnType u).bind (Phrase.meets_token _ _) fun _ => ?_
  refine Phrase.Lawful.bind (((lawful_modifier u).many heads_modifier
    ((ends_modifier fun _ => True).meets fun _ _ _ => trivial)).reword _) ?_
    fun _ => Phrase.lawful_pure _
  exact Phrase.meets_pure _ _

theorem ends_columnSpec : columnSpec.Ends fun t => t = .comma ∨ t = .rParen := by
  refine (Phrase.ends_token _ _).bind fun _ => (Phrase.ends_token _ _).bind fun _ => ?_
  refine Phrase.Ends.bind ((ends_modifier _).many (heads_modifier.begins.mono ?_)) fun _ =>
    Phrase.ends_pure _ _
  rintro t (h | h) (rfl | rfl) <;> cases h

theorem lawful_createTable : createTable.Lawful (Stands u) := by
  refine (lawful_keyword u (by decide)).after fun _ => (lawful_ident u).after fun _ => ?_
  refine (lawful_symbol u not_limit_lParen).after fun _ => ?_
  refine (lawful_items u (lawful_columnSpec u) (ends_columnSpec.mono fun _ => .inl)).bind ?_
    fun _ => (lawful_symbol u not_limit_rParen).after fun _ => Phrase.lawful_pure _
  refine (ends_items (P := (· = .rParen)) (ends_columnSpec.mono fun _ => .inr) ?_).meets
    fun _ => begins_symbol _ _
  rintro t rfl h
  cases h

/-- An expression ends in front of a separator. -/
theorem ends_expr_symbol {want : Token} (h : ∀ l, ¬ Operator l want) : expr.Ends (· = want) :=
  ends_expr.mono fun _ ht => ht ▸ h

theorem not_operator_comma (l : Level) : ¬ Operator l .comma := by
  cases l <;> simp [Operator, word?, cmpOp, addOp, mulOp]

theorem not_operator_semicolon (l : Level) : ¬ Operator l .semicolon := by
  cases l <;> simp [Operator, word?, cmpOp, addOp, mulOp]

theorem lawful_expr : expr.Lawful (Stands u) := lawful_exprAt u .or

theorem lawful_valuesRow : valuesRow.Lawful (Stands u) := by
  refine (lawful_symbol u not_limit_lParen).after fun _ => ?_
  refine (lawful_items u (lawful_expr u) (ends_expr_symbol not_operator_comma)).bind ?_
    fun _ => (lawful_symbol u not_limit_rParen).after fun _ => Phrase.lawful_pure _
  refine (ends_items (ends_expr_symbol not_operator_rParen) ?_).meets fun _ => begins_symbol _ _
  rintro t rfl h
  cases h

theorem ends_valuesRow (P : Token → Prop) : valuesRow.Ends P := by
  rintro ⟨_, _, _, _⟩ t _
  exact ⟨⟨⟨trivial, fun _ => trivial⟩, fun h => nomatch h⟩, fun _ => trivial⟩

/-- A last phrase, from whose meaning that of the whole is made. -/
theorem lawful_last {α β : Type} {A : Phrase Token α} (hA : A.Lawful (Stands u)) (f : α → β) :
    (A >>= fun a => pure (f a)).Lawful (Stands u) :=
  hA.bind (Phrase.meets_pure _ _) fun _ => Phrase.lawful_pure _

/-- The columns that an INSERT may name. -/
abbrev insertColumns : Phrase Token (Option (List String)) :=
  (do symbol .lParen; let c ← identList; symbol .rParen; return c : Phrase Token (List String)).opt

theorem lawful_insertColumns : insertColumns.Lawful (Stands u) := by
  refine Phrase.Lawful.opt ?_ ((Phrase.heads_token fun _ => only?_isSome.mp).bind _)
  refine (lawful_symbol u not_limit_lParen).after fun _ => ?_
  refine (lawful_items u (lawful_ident u) (Phrase.ends_token _ _)).bind ?_
    fun _ => (lawful_symbol u not_limit_rParen).after fun _ => Phrase.lawful_pure _
  refine (ends_items (Phrase.ends_token _ _) ?_).meets fun _ => begins_symbol _ _
  rintro t rfl h
  cases h

/-- VALUES is no bracket. -/
theorem meets_insertColumns {α : Type} (B : Option (List String) → Unit → Phrase Token α) :
    insertColumns.Meets fun columns => keyword "VALUES" >>= B columns := by
  intro d t ht
  have hvalues := begins_keyword _ _ t ht
  rcases d with _ | ⟨_, _, _, _⟩
  · intro h
    have hparen := begins_symbol _ _ t h
    rw [hparen] at hvalues
    cases hvalues
  · exact ⟨⟨⟨trivial, fun _ => trivial⟩, fun h => nomatch h⟩, fun _ => trivial⟩

theorem lawful_insert : insert.Lawful (Stands u) := by
  refine (lawful_keyword u (by decide)).after fun _ => (lawful_ident u).after fun _ => ?_
  refine (lawful_insertColumns u).bind (meets_insertColumns _) fun _ => ?_
  refine (lawful_keyword u (by decide)).after fun _ => ?_
  exact lawful_last u (lawful_items u (lawful_valuesRow u) (ends_valuesRow _)) _

theorem heads_where : (keyword "WHERE" >>= fun _ => expr).Heads fun t => (word? "WHERE" t).isSome :=
  (Phrase.heads_token fun _ h => h).bind _

theorem lawful_optWhere : optWhere.Lawful (Stands u) :=
  Phrase.Lawful.opt ((lawful_keyword u (by decide)).after fun _ => lawful_expr u) heads_where

theorem ends_optWhere : optWhere.Ends
    fun t => (∀ l, ¬ Operator l t) ∧ ¬ (word? "WHERE" t).isSome :=
  Phrase.Ends.opt ((Phrase.ends_token _ _).bind fun _ => ends_expr.mono fun _ => And.left)
    (heads_where.begins.mono fun _ h h' => h'.2 h)

theorem lawful_assignment : assignment.Lawful (Stands u) := by
  refine (lawful_ident u).after fun _ => (lawful_symbol u not_limit_eq).after fun _ => ?_
  exact lawful_last u (lawful_expr u) _

theorem ends_assignment : assignment.Ends fun t => ∀ l, ¬ Operator l t :=
  (Phrase.ends_token _ _).bind fun _ => (Phrase.ends_token _ _).bind fun _ =>
    ends_expr.bind fun _ => Phrase.ends_pure _ _

theorem lawful_assignments : (items assignment).Lawful (Stands u) :=
  lawful_items u (lawful_assignment u) (ends_assignment.mono fun _ ht => ht ▸ not_operator_comma)

theorem meets_assignments {α : Type} (B : List (String × Expr) → Option Expr → α) :
    (items assignment).Meets fun assignments =>
      optWhere >>= fun filter => pure (B assignments filter) := by
  refine (ends_items (P := fun t => (word? "WHERE" t).isSome) (ends_assignment.mono ?_) ?_).meets
    fun _ => heads_where.begins.opt.bind fun _ => Phrase.begins_pure _ _
  · exact fun t ht l => word?_not_mulOp ht l (by decide) (by decide) (by decide)
  · rintro t ht rfl
    cases ht

theorem lawful_update : update.Lawful (Stands u) :=
  (lawful_ident u).after fun _ => (lawful_keyword u (by decide)).after fun _ =>
    (lawful_assignments u).bind (meets_assignments _) fun _ => lawful_last u (lawful_optWhere u) _

theorem lawful_delete : delete.Lawful (Stands u) :=
  (lawful_keyword u (by decide)).after fun _ => (lawful_ident u).after fun _ =>
    lawful_last u (lawful_optWhere u) _

theorem direction?_isSome {t : Token} (h : (direction? t).isSome) :
    (word? "DESC" t).isSome ∨ (word? "ASC" t).isSome := by
  by_contra hne
  rw [not_or] at hne
  simp [direction?, hne] at h

theorem heads_direction : (Phrase.token direction?).Heads
    fun t => (word? "DESC" t).isSome ∨ (word? "ASC" t).isSome :=
  Phrase.heads_token fun _ => direction?_isSome

theorem lawful_direction : (Phrase.token direction?).opt.Lawful (Stands u) := by
  refine Phrase.Lawful.opt ?_ heads_direction
  refine lawful_token u ⟨.word "ASC", by decide⟩ fun t ht hlimit => ?_
  rcases direction?_isSome ht with h | h
  · exact word?_ne h (by decide) hlimit
  · exact word?_ne h (by decide) hlimit

theorem lawful_orderBy : orderBy.Lawful (Stands u) :=
  (lawful_keyword u (by decide)).after fun _ => (lawful_keyword u (by decide)).after
    fun _ => (lawful_ident u).after fun _ => lawful_last u (lawful_direction u) _

theorem heads_orderBy : orderBy.Heads fun t => (word? "ORDER" t).isSome :=
  (Phrase.heads_token fun _ h => h).bind _

theorem ends_orderBy : orderBy.opt.Ends fun t =>
    ¬ (word? "ORDER" t).isSome ∧ ¬ (word? "DESC" t).isSome ∧ ¬ (word? "ASC" t).isSome := by
  refine Phrase.Ends.opt ?_ (heads_orderBy.begins.mono fun _ h h' => h'.1 h)
  refine (Phrase.ends_token _ _).bind fun _ => (Phrase.ends_token _ _).bind fun _ =>
    (Phrase.ends_token _ _).bind fun _ => ?_
  refine (Phrase.Ends.opt (Phrase.ends_token _ _) (heads_direction.begins.mono ?_)).bind
    fun _ => Phrase.ends_pure _ _
  rintro t (h | h) ⟨-, hdesc, hasc⟩
  · exact hdesc h
  · exact hasc h

theorem heads_limit : limit.Heads isLimit :=
  (Phrase.heads_token fun _ h => h).bind _

/-- The number behind a LIMIT is no LIMIT, so an error behind it stands where it is. -/
theorem lawful_limit : limit.Lawful (Stands u) where
  nonempty := ⟨⟨.word "LIMIT", by decide⟩, ⟨.integer 0, rfl⟩⟩
  unambiguous n := (Phrase.unambiguous_token _ _).bind (Phrase.meets_token _ _)
    fun _ => Phrase.unambiguous_token _ _
  carries := by
    intro d w p r e hw hat
    obtain ⟨t, w, rfl, ht, hw⟩ := List.map_eq_cons_iff.mp hw
    obtain ⟨n, rfl, hn⟩ := List.map_eq_singleton_iff.mp hw
    have hlimit : ¬ isLimit n.1 := by
      intro h
      have hsome := d.2.property
      rw [← hn] at hsome
      obtain ⟨w, hw', -⟩ := word?_isSome.mp h
      rw [hw'] at hsome
      cases hsome
    -- The error stands behind the number, whatever is in front of that.
    cases hat with
    | limit p t' ht' expected => exact .limit (t :: n :: p) t' ht' expected
    | here _ _ expected h =>
      refine .here _ _ _ fun hr t' ht' => ?_
      cases p with
      | nil =>
        obtain rfl := Option.some.inj ht'
        exact hlimit
      | cons a p => exact h hr t' ht'

theorem lawful_projection : projection.Lawful (Stands u) := by
  refine Phrase.Lawful.either (lawful_last u (@lawful_symbol u .star ?_) _)
    ((lawful_items u (lawful_ident u) (Phrase.ends_token _ _)).reword _)
    ((Phrase.heads_token fun _ => only?_isSome.mp).bind _)
    (((Phrase.heads_token (p := ident?) fun _ h => h).bind _).reword _) ?_
  · exact fun h => nomatch h
  · rintro t rfl h
    cases h

theorem ends_projection : projection.Ends (· ≠ .comma) := by
  intro d t ht
  rcases d with d | d
  · exact ⟨trivial, fun _ => trivial⟩
  · exact ends_items (Phrase.ends_token _ _) (fun _ h => h) d t ht

theorem meets_projection {α : Type} (B : Projection → Unit → Phrase Token α) :
    projection.Meets fun projection => keyword "FROM" >>= B projection := by
  refine ends_projection.meets fun _ => (begins_keyword _ _).mono fun t ht hcomma => ?_
  rw [hcomma] at ht
  cases ht

theorem begins_limit {α : Type} (f : Option UInt64 → α) :
    (limit.opt >>= fun limit => pure (f limit)).Begins isLimit :=
  heads_limit.begins.opt.bind fun _ => Phrase.begins_pure _ _

/-- ORDER and LIMIT are no operators, and no WHERE. -/
theorem meets_optWhere {α : Type} (f : Option Expr → Option OrderBy → Option UInt64 → α) :
    optWhere.Meets fun filter => orderBy.opt >>= fun orderBy =>
      limit.opt >>= fun limit => pure (f filter orderBy limit) := by
  refine ends_optWhere.meets fun _ => Phrase.Begins.bind (heads_orderBy.begins.opt.mono ?_)
    fun _ => (begins_limit _).mono ?_
  · exact fun t ht => ⟨fun l => word?_not_mulOp ht l (by decide) (by decide) (by decide),
      word?_ne ht (by decide)⟩
  · exact fun t ht => ⟨fun l => word?_not_mulOp ht l (by decide) (by decide) (by decide),
      word?_ne ht (by decide)⟩

theorem meets_orderBy {α : Type} (f : Option OrderBy → Option UInt64 → α) :
    orderBy.opt.Meets fun orderBy => limit.opt >>= fun limit => pure (f orderBy limit) := by
  refine ends_orderBy.meets fun _ => (begins_limit _).mono fun t ht => ?_
  exact ⟨word?_ne ht (by decide), word?_ne ht (by decide), word?_ne ht (by decide)⟩

theorem lawful_select : select.Lawful (Stands u) := by
  refine (lawful_projection u).bind (meets_projection _) fun _ => ?_
  refine (lawful_keyword u (by decide)).after fun _ => (lawful_ident u).after fun _ => ?_
  refine (lawful_optWhere u).bind (meets_optWhere _) fun _ => ?_
  refine ((lawful_orderBy u).opt heads_orderBy).bind (meets_orderBy _) fun _ => ?_
  exact lawful_last u ((lawful_limit u).opt heads_limit) _

theorem lawful_body : ∀ v, (body v).Lawful (Stands u)
  | .create => lawful_createTable u
  | .insert => lawful_insert u
  | .select => lawful_select u
  | .update => lawful_update u
  | .delete => lawful_delete u
  | .begin | .commit | .rollback => Phrase.lawful_pure _

/-- The keywords that statements start with. -/
def verbs : List String :=
  ["CREATE", "INSERT", "SELECT", "UPDATE", "DELETE", "BEGIN", "COMMIT", "ROLLBACK"]

theorem verb?_isSome {t : Token} (h : (verb? t).isSome) : ∃ kw ∈ verbs, (word? kw t).isSome := by
  by_contra hne
  simp only [verbs, List.mem_cons, List.not_mem_nil, or_false, exists_eq_or_imp, exists_eq_left,
    not_or] at hne
  simp [verb?, hne] at h

theorem heads_statement : statement.Heads fun t => ∃ kw ∈ verbs, (word? kw t).isSome :=
  (Phrase.heads_token fun _ => verb?_isSome).bind _

theorem lawful_verb : (Phrase.token verb?).Lawful (Stands u) := by
  refine lawful_token u ⟨.word "BEGIN", by decide⟩ fun t ht hlimit => ?_
  obtain ⟨kw, hkw, h⟩ := verb?_isSome ht
  have hne : ∀ kw ∈ verbs, eqIgnoreAsciiCase kw "LIMIT" = false := by decide
  exact word?_ne h (hne kw hkw) hlimit

theorem lawful_statement : statement.Lawful (Stands u) := (lawful_verb u).after (lawful_body u)

/-! ## Scripts -/

theorem ends_optWhere_semicolon : optWhere.Ends (· = .semicolon) := by
  refine ends_optWhere.mono ?_
  rintro t rfl
  exact ⟨not_operator_semicolon, fun h => nomatch h⟩

theorem ends_items_semicolon {α : Type} {A : Phrase Token α} (hA : A.Ends (· = .semicolon)) :
    (items A).Ends (· = .semicolon) := by
  refine ends_items hA ?_
  rintro t rfl h
  cases h

theorem ends_select_semicolon : select.Ends (· = .semicolon) := by
  refine Phrase.Ends.behind (fun _ => ?_) fun _ => (Phrase.heads_token fun _ h => h).bind _
  refine (Phrase.ends_token _ _).bind fun _ => (Phrase.ends_token _ _).bind fun _ => ?_
  refine ends_optWhere_semicolon.bind fun _ => Phrase.Ends.bind (ends_orderBy.mono ?_) fun _ => ?_
  · rintro t rfl
    exact ⟨(fun h => nomatch h), (fun h => nomatch h), (fun h => nomatch h)⟩
  · refine Phrase.Ends.bind (Phrase.Ends.opt ?_ (heads_limit.begins.mono ?_)) fun _ =>
      Phrase.ends_pure _ _
    · exact (Phrase.ends_token _ _).bind fun _ => Phrase.ends_token _ _
    · rintro t h rfl
      cases h

/-- A statement ends in front of a semicolon. -/
theorem ends_statement : statement.Ends (· = .semicolon) := by
  refine (Phrase.ends_token _ _).bind fun v => ?_
  have htoken : ∀ {α : Type} (p : Token → Option α), (Phrase.token p).Ends (· = .semicolon) :=
    fun p => Phrase.ends_token p _
  cases v with
  | create =>
    refine (htoken _).bind fun _ => (htoken _).bind fun _ => (htoken _).bind fun _ => ?_
    exact Phrase.Ends.behind (fun _ => (htoken _).bind fun _ => Phrase.ends_pure _ _)
      fun _ => (Phrase.heads_token fun _ h => h).bind _
  | insert =>
    refine (htoken _).bind fun _ => (htoken _).bind fun _ => ?_
    refine Phrase.Ends.behind (fun _ => (htoken _).bind fun _ => ?_)
      fun _ => (Phrase.heads_token fun _ h => h).bind _
    exact Phrase.Ends.bind (ends_items_semicolon (ends_valuesRow _)) fun _ => Phrase.ends_pure _ _
  | select => exact ends_select_semicolon
  | update =>
    refine (htoken _).bind fun _ => (htoken _).bind fun _ => ?_
    refine Phrase.Ends.bind (ends_items_semicolon (ends_assignment.mono ?_)) fun _ =>
      ends_optWhere_semicolon.bind fun _ => Phrase.ends_pure _ _
    exact fun _ ht => ht ▸ not_operator_semicolon
  | delete =>
    exact (htoken _).bind fun _ => (htoken _).bind fun _ =>
      ends_optWhere_semicolon.bind fun _ => Phrase.ends_pure _ _
  | begin | commit | rollback => exact Phrase.ends_pure _ _

theorem not_semicolon_of_verb {t : Token} (h : ∃ kw ∈ verbs, (word? kw t).isSome) :
    t ≠ .semicolon := by
  rintro rfl
  obtain ⟨kw, -, h⟩ := h
  cases h

/-- A script that starts with a statement starts with no semicolon. -/
theorem statement_append_ne (s : statement.Tree) (c c' : List Token) :
    statement.yield s ++ c ≠ .semicolon :: c' := by
  intro heq
  obtain ⟨t, ht, -, hverb⟩ := heads_statement.head_append s c
  rw [heq] at ht
  exact not_semicolon_of_verb hverb (Option.some.inj ht).symm

theorem statement_append_ne_nil (s : statement.Tree) (c : List Token) :
    statement.yield s ++ c ≠ [] :=
  List.append_ne_nil_of_left_ne_nil (heads_statement.ne_nil s) c

/-- The statement at the front of a script, where its end or a semicolon follows. -/
theorem statement_inj {s s' : statement.Tree} {c c' : List Token}
    (hc : ∀ t ∈ c.head?, t = .semicolon) (hc' : ∀ t ∈ c'.head?, t = .semicolon)
    (h : statement.yield s ++ c = statement.yield s' ++ c') : s = s' := by
  refine (lawful_statement .ascii).unambiguous _ s s' c c' ?_ ?_ h (Nat.lt_succ_self _)
  · exact fun t ht => ends_statement s t (hc t ht)
  · exact fun t ht => ends_statement s' t (hc' t ht)

/-- The tokens of a script tell its derivation. -/
theorem ScriptTree.yield_inj : ∀ d d' : ScriptTree, d.yield = d'.yield → d = d'
  | .done, .done, _ => rfl
  | .done, .semicolon _, h => by cases h
  | .done, .last s, h => (heads_statement.ne_nil s h.symm).elim
  | .done, .next s _, h => (statement_append_ne_nil s _ h.symm).elim
  | .semicolon _, .done, h => by cases h
  | .semicolon d, .semicolon d', h => by rw [yield_inj d d' (List.cons.inj h).2]
  | .semicolon d, .last s, h => by
    refine (statement_append_ne s [] d.yield ?_).elim
    rw [List.append_nil]
    exact h.symm
  | .semicolon _, .next s _, h => (statement_append_ne s _ _ h.symm).elim
  | .last s, .done, h => (heads_statement.ne_nil s h).elim
  | .last s, .semicolon d, h => by
    refine (statement_append_ne s [] d.yield ?_).elim
    rw [List.append_nil]
    exact h
  | .last s, .last s', h => by
    have heq : statement.yield s ++ [] = statement.yield s' ++ [] := by
      rw [List.append_nil, List.append_nil]
      exact h
    rw [statement_inj (by simp) (by simp) heq]
  | .last s, .next s' d', h => by
    have heq : statement.yield s ++ [] = statement.yield s' ++ .semicolon :: d'.yield := by
      rw [List.append_nil]
      exact h
    obtain rfl := statement_inj (by simp) (by simp) heq
    cases List.append_cancel_left heq
  | .next s _, .done, h => (statement_append_ne_nil s _ h).elim
  | .next s _, .semicolon _, h => (statement_append_ne s _ _ h).elim
  | .next s d, .last s', h => by
    have heq : statement.yield s ++ .semicolon :: d.yield = statement.yield s' ++ [] := by
      rw [List.append_nil]
      exact h
    obtain rfl := statement_inj (by simp) (by simp) heq
    cases List.append_cancel_left heq
  | .next s d, .next s' d', h => by
    have heq : statement.yield s ++ .semicolon :: d.yield =
        statement.yield s' ++ .semicolon :: d'.yield := h
    obtain rfl := statement_inj (by simp) (by simp) heq
    rw [yield_inj d d' (List.cons.inj (List.append_cancel_left heq)).2]

end Grammar

end Choam
