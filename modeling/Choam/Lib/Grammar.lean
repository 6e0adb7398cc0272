import Mathlib.Data.List.Basic
import Mathlib.Data.List.Forall2

/-!
# Grammars by combinators, read one token ahead

A `Phrase` is a kind of phrase over some tokens: its derivation trees, the tokens under a tree, what
a tree means, and which tokens would go on with a tree instead of ending it. Phrases form a monad,
so a grammar is written as the parser for it would be, with `opt` and `many` for the optional and
repeated parts. A recursive phrase has an inductive type of trees of its own; `cover` carries what
is known of a combination to it.

`Unambiguous` says that a tree can be told from the tokens: two trees that start at the same token
and each end where one token of what follows says so are the same tree. The combinators keep it
when one token decides between the ways on, which `Meets` says of a phrase and what follows it. The
bound on the number of tokens is there for induction over recursive phrases.

`Gives` says what can be made of tokens with a property, and `Respects` that tokens may be replaced
by others without a change of the meaning.
-/

/-- A kind of phrase over the tokens `T`. -/
structure Phrase (T : Type) (α : Type) where
  Tree : Type
  yield : Tree → List T
  value : Tree → α
  /-- The token does not go on with the tree. -/
  Stop : Tree → T → Prop

namespace Phrase

variable {T α β γ : Type}

/-- The tree ends before `c`. -/
def Stops (A : Phrase T α) (d : A.Tree) (c : List T) : Prop := ∀ t ∈ c.head?, A.Stop d t

/-- Some tree starts with the token. -/
def Starts (A : Phrase T α) (t : T) : Prop := ∃ d, (A.yield d).head? = some t

/-- Every tree has a token, and the first one satisfies `P`. -/
def Heads (A : Phrase T α) (P : T → Prop) : Prop := ∀ d, ∃ t ∈ (A.yield d).head?, P t

/-- Among inputs of fewer than `n` tokens, the tree at the front can be told. -/
def Unambiguous (A : Phrase T α) (n : Nat) : Prop :=
  ∀ d d' c c', A.Stops d c → A.Stops d' c' → A.yield d ++ c = A.yield d' ++ c' →
    (A.yield d ++ c).length < n → d = d'

/-- What follows a tree never starts with a token that would go on with it. -/
def Meets (A : Phrase T α) (B : α → Phrase T β) : Prop :=
  ∀ d t, (B (A.value d)).Starts t → A.Stop d t

/-- Every token satisfies `P`. -/
def All (A : Phrase T α) (P : T → Prop) : Prop := ∀ d, ∀ t ∈ A.yield d, P t

/-! ## Combinators -/

/-- One token that `p` knows. -/
abbrev token (p : T → Option α) : Phrase T α where
  Tree := {t : T // (p t).isSome}
  yield t := [t.val]
  value t := (p t.val).get t.property
  Stop _ _ := True

/-- No tokens. -/
abbrev empty (a : α) : Phrase T α where
  Tree := Unit
  yield _ := []
  value _ := a
  Stop _ _ := True

/-- An `A`, and behind it a phrase that may depend on what it means. -/
abbrev andThen (A : Phrase T α) (B : α → Phrase T β) : Phrase T β where
  Tree := (d : A.Tree) × (B (A.value d)).Tree
  yield d := A.yield d.1 ++ (B (A.value d.1)).yield d.2
  value d := (B (A.value d.1)).value d.2
  Stop d t := (B (A.value d.1)).Stop d.2 t ∧
    ((B (A.value d.1)).yield d.2 = [] → A.Stop d.1 t)

/-- The same phrase with another meaning. -/
abbrev reword (f : α → β) (A : Phrase T α) : Phrase T β where
  Tree := A.Tree
  yield := A.yield
  value d := f (A.value d)
  Stop := A.Stop

instance : Monad (Phrase T) where
  pure := empty
  bind := andThen
  map := reword

/-- An `A` or nothing. -/
abbrev opt (A : Phrase T α) : Phrase T (Option α) where
  Tree := Option A.Tree
  yield d := (d.map A.yield).getD []
  value d := d.map A.value
  Stop
    | none, t => ¬ A.Starts t
    | some d, t => A.Stop d t

/-- Any number of `A`s. -/
abbrev many (A : Phrase T α) : Phrase T (List α) where
  Tree := List A.Tree
  yield d := d.flatMap A.yield
  value d := d.map A.value
  Stop d t := ¬ A.Starts t ∧ ∀ e ∈ d.getLast?, A.Stop e t

/-- Either an `A` or a `B`. -/
abbrev either (A B : Phrase T α) : Phrase T α where
  Tree := A.Tree ⊕ B.Tree
  yield := Sum.elim A.yield B.yield
  value := Sum.elim A.value B.value
  Stop := Sum.elim A.Stop B.Stop

instance (a : α) : Nonempty (pure a : Phrase T α).Tree := ⟨()⟩

instance {A : Phrase T α} {B : α → Phrase T β} [h : Nonempty A.Tree]
    [h' : ∀ a, Nonempty (B a).Tree] : Nonempty (A >>= B).Tree :=
  let ⟨d⟩ := h
  let ⟨b⟩ := h' (A.value d)
  ⟨⟨d, b⟩⟩

instance (A : Phrase T α) : Nonempty A.opt.Tree := ⟨none⟩

instance (A : Phrase T α) : Nonempty A.many.Tree := ⟨[]⟩

instance {A : Phrase T α} [h : Nonempty A.Tree] (f : α → β) : Nonempty (A.reword f).Tree := h

instance {A : Phrase T α} [h : Nonempty A.Tree] (f : α → β) : Nonempty (f <$> A).Tree := h

instance {A B : Phrase T α} [h : Nonempty A.Tree] : Nonempty (A.either B).Tree :=
  let ⟨d⟩ := h
  ⟨.inl d⟩

/-! ## The end of a tree -/

@[simp] theorem stops_nil (A : Phrase T α) (d : A.Tree) : A.Stops d [] := by
  intro t ht
  cases ht

@[simp] theorem stops_cons {A : Phrase T α} {d : A.Tree} {t : T} {c : List T} :
    A.Stops d (t :: c) ↔ A.Stop d t := by
  simp [Stops]

theorem stops_congr {A : Phrase T α} {d : A.Tree} {c c' : List T} (h : c.head? = c'.head?) :
    A.Stops d c ↔ A.Stops d c' := by
  simp only [Stops, h]

@[simp] theorem stops_token (p : T → Option α) (d : (token p).Tree) (c : List T) :
    (token p).Stops d c :=
  fun _ _ => trivial

theorem meets_token (p : T → Option α) (B : α → Phrase T β) : (token p).Meets B :=
  fun _ _ _ => trivial

/-- What ends a sequence ends its second part, and the second part ends the first. -/
theorem Stops.split {A : Phrase T α} {B : α → Phrase T β} (hAB : A.Meets B) {d : A.Tree}
    {b : (B (A.value d)).Tree} {c : List T} (h : (A >>= B).Stops ⟨d, b⟩ c) :
    (B (A.value d)).Stops b c ∧ A.Stops d ((B (A.value d)).yield b ++ c) := by
  refine ⟨fun t ht => (h t ht).1, ?_⟩
  intro t ht
  cases hb : (B (A.value d)).yield b with
  | nil =>
    rw [hb, List.nil_append] at ht
    exact (h t ht).2 hb
  | cons t' l =>
    rw [hb] at ht
    exact hAB d t ⟨b, by rw [hb]; exact ht⟩

/-- The converse of `Stops.split`. -/
theorem Stops.join {A : Phrase T α} {B : α → Phrase T β} {d : A.Tree}
    {b : (B (A.value d)).Tree} {c : List T} (hb : (B (A.value d)).Stops b c)
    (hd : A.Stops d ((B (A.value d)).yield b ++ c)) : (A >>= B).Stops ⟨d, b⟩ c := by
  intro t ht
  refine ⟨hb t ht, fun h => ?_⟩
  rw [h, List.nil_append] at hd
  exact hd t ht

theorem many_stops_cons {A : Phrase T α} {x : A.Tree} {xs : List A.Tree} {c : List T}
    (h : A.many.Stops (x :: xs) c) : A.many.Stops xs c := by
  intro t ht
  refine ⟨(h t ht).1, fun e he => (h t ht).2 e ?_⟩
  cases xs with
  | nil => cases he
  | cons y ys => exact he

/-! ## First tokens -/

theorem Heads.mono {A : Phrase T α} {P Q : T → Prop} (h : A.Heads P) (hPQ : ∀ t, P t → Q t) :
    A.Heads Q := by
  intro d
  obtain ⟨t, ht, hP⟩ := h d
  exact ⟨t, ht, hPQ t hP⟩

theorem heads_token {p : T → Option α} {P : T → Prop} (h : ∀ t, (p t).isSome → P t) :
    (token p).Heads P :=
  fun d => ⟨d.val, rfl, h d.val d.property⟩

theorem yield_bind {A : Phrase T α} {B : α → Phrase T β} (d : (A >>= B).Tree) :
    (A >>= B).yield d = A.yield d.1 ++ (B (A.value d.1)).yield d.2 :=
  rfl

theorem yield_many_cons {A : Phrase T α} (d : A.Tree) (ds : A.many.Tree) :
    A.many.yield (List.cons d ds) = A.yield d ++ A.many.yield ds :=
  rfl

theorem Heads.bind {A : Phrase T α} {P : T → Prop} (h : A.Heads P) (B : α → Phrase T β) :
    (A >>= B).Heads P := by
  intro d
  obtain ⟨t, ht, hP⟩ := h d.1
  refine ⟨t, ?_, hP⟩
  rw [Option.mem_def] at ht ⊢
  rw [yield_bind, List.head?_append, ht, Option.some_or]

theorem Heads.reword {A : Phrase T α} {P : T → Prop} (h : A.Heads P) (f : α → β) :
    (A.reword f).Heads P :=
  h

theorem heads_either {A B : Phrase T α} {P : T → Prop} (hA : A.Heads P) (hB : B.Heads P) :
    (A.either B).Heads P
  | .inl d => hA d
  | .inr d => hB d

theorem Heads.of_starts {A : Phrase T α} {P : T → Prop} (h : A.Heads P) {t : T}
    (ht : A.Starts t) : P t := by
  obtain ⟨d, hd⟩ := ht
  obtain ⟨t', ht', hP⟩ := h d
  rw [hd, Option.mem_some_iff] at ht'
  exact ht' ▸ hP

theorem starts_token {p : T → Option α} {t : T} : (token p).Starts t ↔ (p t).isSome := by
  constructor
  · intro h
    exact heads_token (fun _ h => h) |>.of_starts h
  · intro h
    exact ⟨⟨t, h⟩, rfl⟩

/-- A phrase that starts with one of the tokens a first part knows. -/
theorem starts_bind_token {p : T → Option α} {B : α → Phrase T β}
    (hB : ∀ a, Nonempty (B a).Tree) {t : T} : (token p >>= B).Starts t ↔ (p t).isSome := by
  constructor
  · intro h
    exact (heads_token (fun _ h => h)).bind B |>.of_starts h
  · intro h
    obtain ⟨b⟩ := hB ((p t).get h)
    exact ⟨⟨⟨t, h⟩, b⟩, rfl⟩

theorem Heads.ne_nil {A : Phrase T α} {P : T → Prop} (h : A.Heads P) (d : A.Tree) :
    A.yield d ≠ [] := by
  intro hnil
  obtain ⟨t, ht, -⟩ := h d
  rw [hnil] at ht
  cases ht

/-- Every token that a tree starts with satisfies `P`. -/
def Begins (A : Phrase T α) (P : T → Prop) : Prop := ∀ t, A.Starts t → P t

theorem Heads.begins {A : Phrase T α} {P : T → Prop} (h : A.Heads P) : A.Begins P :=
  fun _ => h.of_starts

theorem begins_pure (a : α) (P : T → Prop) : (pure a : Phrase T α).Begins P := by
  rintro t ⟨d, hd⟩
  cases hd

theorem Begins.mono {A : Phrase T α} {P Q : T → Prop} (h : A.Begins P) (hPQ : ∀ t, P t → Q t) :
    A.Begins Q :=
  fun t ht => hPQ t (h t ht)

theorem Begins.bind {A : Phrase T α} {B : α → Phrase T β} {P : T → Prop} (hA : A.Begins P)
    (hB : ∀ a, (B a).Begins P) : (A >>= B).Begins P := by
  rintro t ⟨d, hd⟩
  rw [yield_bind] at hd
  cases hy : A.yield d.1 with
  | nil =>
    rw [hy, List.nil_append] at hd
    exact hB _ t ⟨d.2, hd⟩
  | cons t' l =>
    rw [hy] at hd
    exact hA t ⟨d.1, by rw [hy]; exact hd⟩

theorem Begins.opt {A : Phrase T α} {P : T → Prop} (hA : A.Begins P) : A.opt.Begins P := by
  rintro t ⟨d, hd⟩
  cases d with
  | none => cases hd
  | some d => exact hA t ⟨d, hd⟩

theorem Begins.many {A : Phrase T α} {P : T → Prop} (hA : A.Begins P) : A.many.Begins P := by
  rintro t ⟨d, hd⟩
  induction d with
  | nil => cases hd
  | cons e es ih =>
    rw [yield_many_cons] at hd
    cases hy : A.yield e with
    | nil =>
      rw [hy, List.nil_append] at hd
      exact ih hd
    | cons t' l =>
      rw [hy] at hd
      exact hA t ⟨e, by rw [hy]; exact hd⟩

theorem Begins.reword {A : Phrase T α} {P : T → Prop} (hA : A.Begins P) (f : α → β) :
    (A.reword f).Begins P :=
  hA

/-- Every tree ends in front of a token that satisfies `P`. -/
def Ends (A : Phrase T α) (P : T → Prop) : Prop := ∀ d t, P t → A.Stop d t

theorem ends_token (p : T → Option α) (P : T → Prop) : (token p).Ends P :=
  fun _ _ _ => trivial

theorem ends_pure (a : α) (P : T → Prop) : (pure a : Phrase T α).Ends P :=
  fun _ _ _ => trivial

theorem Ends.mono {A : Phrase T α} {P Q : T → Prop} (h : A.Ends P) (hQP : ∀ t, Q t → P t) :
    A.Ends Q :=
  fun d t ht => h d t (hQP t ht)

theorem Ends.bind {A : Phrase T α} {B : α → Phrase T β} {P : T → Prop} (hA : A.Ends P)
    (hB : ∀ a, (B a).Ends P) : (A >>= B).Ends P :=
  fun d t ht => ⟨hB _ d.2 t ht, fun _ => hA d.1 t ht⟩

/-- Where a second part ends that is never empty. -/
theorem Ends.behind {A : Phrase T α} {B : α → Phrase T β} {P F : T → Prop}
    (hB : ∀ a, (B a).Ends P) (hF : ∀ a, (B a).Heads F) : (A >>= B).Ends P :=
  fun d t ht => ⟨hB _ d.2 t ht, fun h => ((hF _).ne_nil d.2 h).elim⟩

theorem Ends.opt {A : Phrase T α} {P : T → Prop} (hA : A.Ends P)
    (hP : A.Begins fun t => ¬ P t) : A.opt.Ends P := by
  intro d t ht
  cases d with
  | none => exact fun h => hP t h ht
  | some d => exact hA d t ht

theorem Ends.many {A : Phrase T α} {P : T → Prop} (hA : A.Ends P)
    (hP : A.Begins fun t => ¬ P t) : A.many.Ends P :=
  fun _ t ht => ⟨fun h => hP t h ht, fun e _ => hA e t ht⟩

theorem Ends.meets {A : Phrase T α} {B : α → Phrase T β} {P : T → Prop} (hA : A.Ends P)
    (hB : ∀ a, (B a).Begins P) : A.Meets B :=
  fun d t ht => hA d t (hB _ t ht)

/-- Nothing follows a tree inside the sequence. -/
theorem meets_pure (A : Phrase T α) (f : α → β) : A.Meets fun a => pure (f a) :=
  fun _ t ht => (begins_pure _ (fun _ => False) t ht).elim

/-- The first token behind a phrase that is never empty is one it starts with. -/
theorem Heads.head_append {A : Phrase T α} {P : T → Prop} (h : A.Heads P) (d : A.Tree)
    (c : List T) : ∃ t, (A.yield d ++ c).head? = some t ∧ A.Starts t ∧ P t := by
  obtain ⟨t, ht, hP⟩ := h d
  refine ⟨t, ?_, ⟨d, ht⟩, hP⟩
  rw [List.head?_append, Option.mem_def.mp ht, Option.some_or]

/-! ## A tree is told from its tokens -/

theorem Unambiguous.mono {A : Phrase T α} {n m : Nat} (h : A.Unambiguous n) (hm : m ≤ n) :
    A.Unambiguous m :=
  fun d d' c c' hs hs' heq hlen => h d d' c c' hs hs' heq (Nat.lt_of_lt_of_le hlen hm)

theorem unambiguous_token (p : T → Option α) (n : Nat) : (token p).Unambiguous n := by
  intro d d' c c' _ _ heq _
  exact Subtype.ext (List.cons.inj heq).1

theorem unambiguous_pure (a : α) (n : Nat) : (pure a : Phrase T α).Unambiguous n :=
  fun _ _ _ _ _ _ _ _ => rfl

/-- The first part is told from its tokens, and then the second from what is left. -/
theorem Unambiguous.bind {A : Phrase T α} {B : α → Phrase T β} {n : Nat}
    (hA : A.Unambiguous n) (hAB : A.Meets B)
    (hB : ∀ d, (B (A.value d)).Unambiguous (n - (A.yield d).length)) :
    (A >>= B).Unambiguous n := by
  intro d d' c c' hs hs' heq hlen
  obtain ⟨d, b⟩ := d
  obtain ⟨d', b'⟩ := d'
  have hc := Stops.split hAB hs
  have hc' := Stops.split hAB hs'
  change A.yield d ++ (B (A.value d)).yield b ++ c =
    A.yield d' ++ (B (A.value d')).yield b' ++ c' at heq
  change (A.yield d ++ (B (A.value d)).yield b ++ c).length < n at hlen
  rw [List.append_assoc, List.append_assoc] at heq
  rw [List.append_assoc] at hlen
  obtain rfl := hA d d' _ _ hc.2 hc'.2 heq hlen
  have hb := List.append_cancel_left heq
  rw [List.length_append] at hlen
  obtain rfl := hB d b b' c c' hc.1 hc'.1 hb (by omega)
  rfl

theorem Unambiguous.opt {A : Phrase T α} {n : Nat} {P : T → Prop} (hA : A.Unambiguous n)
    (hP : A.Heads P) : A.opt.Unambiguous n := by
  -- Nothing is there exactly when an `A` does not start.
  have hnone : ∀ (d : A.Tree) c c', A.opt.Stops none c' → A.yield d ++ c = c' → False := by
    intro d c c' hs heq
    obtain ⟨t, ht, hstart, -⟩ := hP.head_append d c
    exact hs t (by rw [← heq]; exact ht) hstart
  intro d d' c c' hs hs' heq hlen
  cases d with
  | none =>
    cases d' with
    | none => rfl
    | some d' => exact (hnone d' c' c hs heq.symm).elim
  | some d =>
    cases d' with
    | none => exact (hnone d c c' hs' heq).elim
    | some d' => exact congrArg some (hA d d' c c' hs hs' heq hlen)

theorem Unambiguous.many {A : Phrase T α} {n : Nat} {P : T → Prop} (hA : A.Unambiguous n)
    (hP : A.Heads P) (hAA : A.Meets fun _ => A) : A.many.Unambiguous n := by
  have hnil : ∀ (d : A.Tree) ds c c', A.many.Stops [] c' → A.many.yield (d :: ds) ++ c = c' →
      False := by
    intro d ds c c' hs heq
    rw [yield_many_cons, List.append_assoc] at heq
    obtain ⟨t, ht, hstart, -⟩ := hP.head_append d (A.many.yield ds ++ c)
    exact (hs t (by rw [← heq]; exact ht)).1 hstart
  have hstops : ∀ (d : A.Tree) ds c, A.many.Stops (d :: ds) c →
      A.Stops d (A.many.yield ds ++ c) := by
    intro d ds c hs
    cases ds with
    | nil => exact fun t ht => (hs t ht).2 d rfl
    | cons e es =>
      intro t ht
      obtain ⟨t', ht', -⟩ := hP e
      have hhead : (A.many.yield (e :: es) ++ c).head? = some t' := by
        rw [yield_many_cons, List.append_assoc, List.head?_append, Option.mem_def.mp ht', Option.some_or]
      rw [hhead, Option.mem_some_iff] at ht
      exact ht ▸ hAA d t' ⟨e, ht'⟩
  intro d
  induction d with
  | nil =>
    intro d' c c' hs hs' heq hlen
    cases d' with
    | nil => rfl
    | cons d' ds' => exact (hnil d' ds' c' c hs heq.symm).elim
  | cons d ds ih =>
    intro d' c c' hs hs' heq hlen
    cases d' with
    | nil => exact (hnil d ds c c' hs' heq).elim
    | cons d' ds' =>
      rw [yield_many_cons, yield_many_cons, List.append_assoc, List.append_assoc] at heq
      rw [yield_many_cons, List.append_assoc] at hlen
      obtain rfl := hA d d' _ _ (hstops d ds c hs) (hstops d' ds' c' hs') heq hlen
      have hds := List.append_cancel_left heq
      rw [List.length_append] at hlen
      rw [ih ds' c c' (many_stops_cons hs) (many_stops_cons hs') hds (by omega)]

/-- One token tells which of two phrases is there. -/
theorem Unambiguous.either {A B : Phrase T α} {n : Nat} {P Q : T → Prop}
    (hA : A.Unambiguous n) (hB : B.Unambiguous n) (hP : A.Heads P) (hQ : B.Heads Q)
    (hPQ : ∀ t, P t → ¬ Q t) : (A.either B).Unambiguous n := by
  have hmixed : ∀ (d : A.Tree) (e : B.Tree) c c', A.yield d ++ c = B.yield e ++ c' → False := by
    intro d e c c' heq
    obtain ⟨t, ht, -, hPt⟩ := hP.head_append d c
    obtain ⟨t', ht', -, hQt⟩ := hQ.head_append e c'
    rw [heq, ht', Option.some.injEq] at ht
    exact hPQ t hPt (ht ▸ hQt)
  intro d d' c c' hs hs' heq hlen
  cases d with
  | inl d =>
    cases d' with
    | inl d' => exact congrArg Sum.inl (hA d d' c c' hs hs' heq hlen)
    | inr e => exact (hmixed d e c c' heq).elim
  | inr e =>
    cases d' with
    | inl d' => exact (hmixed d' e c' c heq.symm).elim
    | inr e' => exact congrArg Sum.inr (hB e e' c c' hs hs' heq hlen)

/-- `C` is the phrase `A`, its trees made by `f`. -/
structure Cover (A C : Phrase T α) (f : A.Tree → C.Tree) : Prop where
  yield : ∀ d, C.yield (f d) = A.yield d
  value : ∀ d, C.value (f d) = A.value d
  stop : ∀ d t, C.Stop (f d) t ↔ A.Stop d t

theorem Unambiguous.cover {A C : Phrase T α} {n : Nat} {f : A.Tree → C.Tree}
    (hA : A.Unambiguous n) (h : Cover A C f) (hf : f.Surjective) : C.Unambiguous n := by
  intro d d' c c' hs hs' heq hlen
  obtain ⟨d, rfl⟩ := hf d
  obtain ⟨d', rfl⟩ := hf d'
  rw [h.yield] at hlen
  rw [h.yield, h.yield] at heq
  exact congrArg f (hA d d' c c' (fun t ht => (h.stop d t).mp (hs t ht))
    (fun t ht => (h.stop d' t).mp (hs' t ht)) heq hlen)

/-! ## Left recursion

A phrase that is another phrase, or itself with one more step behind it, is that other phrase with
any number of steps behind it. -/

/-- `C` is an `S` or a `C` with an `X` behind it, which says what to make of what stands before. -/
structure Chain (S : Phrase T α) (X : Phrase T (α → α)) (C : Phrase T α) where
  up : S.Tree → C.Tree
  step : C.Tree → X.Tree → C.Tree
  yield_up (s : S.Tree) : C.yield (up s) = S.yield s
  yield_step (c : C.Tree) (x : X.Tree) : C.yield (step c x) = C.yield c ++ X.yield x
  value_up (s : S.Tree) : C.value (up s) = S.value s
  value_step (c : C.Tree) (x : X.Tree) : C.value (step c x) = X.value x (C.value c)
  stop_up (s : S.Tree) (t : T) : C.Stop (up s) t ↔ S.Stop s t ∧ ¬ X.Starts t
  stop_step (c : C.Tree) (x : X.Tree) (t : T) :
    C.Stop (step c x) t ↔ X.Stop x t ∧ ¬ X.Starts t
  chains (c : C.Tree) : ∃ s, ∃ xs : List X.Tree, c = xs.foldl step (up s)

namespace Chain

variable {S : Phrase T α} {X : Phrase T (α → α)} {C : Phrase T α}

/-- The steps behind `left`. -/
abbrev steps (X : Phrase T (α → α)) (left : α) : Phrase T α :=
  X.many.reword fun l => l.foldl (fun a f => f a) left

/-- The first phrase and its steps. -/
def make (h : Chain S X C) (d : (S >>= steps X).Tree) : C.Tree := d.2.foldl h.step (h.up d.1)

theorem yield_foldl (h : Chain S X C) (xs : List X.Tree) (c : C.Tree) :
    C.yield (xs.foldl h.step c) = C.yield c ++ xs.flatMap X.yield := by
  induction xs generalizing c with
  | nil => simp
  | cons x xs ih => rw [List.foldl_cons, ih, h.yield_step, List.flatMap_cons, List.append_assoc]

theorem value_foldl (h : Chain S X C) (xs : List X.Tree) (c : C.Tree) :
    C.value (xs.foldl h.step c) = (xs.map X.value).foldl (fun a f => f a) (C.value c) := by
  induction xs generalizing c with
  | nil => rfl
  | cons x xs ih => rw [List.foldl_cons, ih, h.value_step, List.map_cons, List.foldl_cons]

theorem cover (h : Chain S X C) {P : T → Prop} (hX : X.Heads P) :
    Cover (S >>= steps X) C h.make where
  yield d := (h.yield_foldl d.2 (h.up d.1)).trans (congrArg (· ++ _) (h.yield_up d.1))
  value d := (h.value_foldl d.2 (h.up d.1)).trans (by rw [h.value_up]; rfl)
  stop := by
    rintro ⟨s, xs⟩ t
    change C.Stop (xs.foldl h.step (h.up s)) t ↔
      (¬ X.Starts t ∧ ∀ e ∈ xs.getLast?, X.Stop e t) ∧ (xs.flatMap X.yield = [] → S.Stop s t)
    cases hxs : xs.reverse with
    | nil =>
      obtain rfl := List.reverse_eq_nil_iff.mp hxs
      rw [List.foldl_nil, h.stop_up]
      simp [and_comm]
    | cons x ys =>
      obtain rfl : xs = ys.reverse ++ [x] := by
        rw [← List.reverse_reverse xs, hxs, List.reverse_cons]
      have hne : X.yield x ≠ [] := hX.ne_nil x
      rw [List.foldl_append, List.foldl_cons, List.foldl_nil, h.stop_step]
      simp [hne, and_comm]

theorem make_surjective (h : Chain S X C) : h.make.Surjective := by
  intro c
  obtain ⟨s, xs, rfl⟩ := h.chains c
  exact ⟨⟨s, xs⟩, rfl⟩

theorem meets (h : ∀ s t, X.Starts t → S.Stop s t) : S.Meets (steps X) :=
  Ends.meets (P := X.Starts) h fun _ => Begins.reword (Begins.many fun _ ht => ht) _

theorem unambiguous (h : Chain S X C) {P : T → Prop} {n : Nat} (hX : X.Heads P)
    (hS : S.Unambiguous n) (hXn : X.Unambiguous n) (hSX : ∀ s t, X.Starts t → S.Stop s t)
    (hXX : ∀ x t, X.Starts t → X.Stop x t) : C.Unambiguous n := by
  refine Unambiguous.cover (Unambiguous.bind hS (meets hSX) fun d => ?_) (h.cover hX)
    h.make_surjective
  exact (hXn.mono (Nat.sub_le _ _)).many hX hXX

end Chain

/-! ## What holds of every token -/

theorem all_token {p : T → Option α} {P : T → Prop} (h : ∀ t, (p t).isSome → P t) :
    (token p).All P := by
  intro d t ht
  rw [List.mem_singleton.mp ht]
  exact h d.val d.property

theorem all_pure (a : α) (P : T → Prop) : (pure a : Phrase T α).All P := by
  intro d t ht
  cases ht

theorem All.bind {A : Phrase T α} {B : α → Phrase T β} {P : T → Prop} (hA : A.All P)
    (hB : ∀ a, (B a).All P) : (A >>= B).All P := by
  intro d t ht
  rw [yield_bind, List.mem_append] at ht
  rcases ht with ht | ht
  · exact hA d.1 t ht
  · exact hB _ d.2 t ht

theorem All.opt {A : Phrase T α} {P : T → Prop} (hA : A.All P) : A.opt.All P
  | none, _, ht => by cases ht
  | some d, t, ht => hA d t ht

theorem All.many {A : Phrase T α} {P : T → Prop} (hA : A.All P) : A.many.All P := by
  intro d t ht
  obtain ⟨e, -, he⟩ := List.mem_flatMap.mp ht
  exact hA e t he

theorem All.either {A B : Phrase T α} {P : T → Prop} (hA : A.All P) (hB : B.All P) :
    (A.either B).All P
  | .inl d, t, ht => hA d t ht
  | .inr d, t, ht => hB d t ht

theorem All.reword {A : Phrase T α} {P : T → Prop} (hA : A.All P) (f : α → β) :
    (A.reword f).All P := hA

/-! ## What trees of such tokens mean -/

/-- From tokens that satisfy `P` nothing is made that does not satisfy `Q`. -/
def Gives (A : Phrase T α) (P : T → Prop) (Q : α → Prop) : Prop :=
  ∀ d, (∀ t ∈ A.yield d, P t) → Q (A.value d)

section Gives

variable {A : Phrase T α} {P : T → Prop} {Q : α → Prop}

theorem gives_token {p : T → Option α} (h : ∀ t a, p t = some a → P t → Q a) :
    (token p).Gives P Q := by
  intro d hd
  exact h d.val _ (Option.eq_some_of_isSome d.property) (hd d.val List.mem_cons_self)

theorem gives_true : A.Gives P fun _ => True := fun _ _ => trivial

theorem Gives.reword {R : β → Prop} (h : A.Gives P Q) (f : α → β) (hf : ∀ a, Q a → R (f a)) :
    (A.reword f).Gives P R :=
  fun d hd => hf _ (h d hd)

theorem Gives.bind {B : α → Phrase T β} {R : β → Prop} (hA : A.Gives P Q)
    (hB : ∀ a, Q a → (B a).Gives P R) : (A >>= B).Gives P R := by
  intro d hd
  rw [yield_bind] at hd
  exact hB _ (hA d.1 fun t ht => hd t (List.mem_append_left _ ht)) d.2
    fun t ht => hd t (List.mem_append_right _ ht)

theorem gives_pure {a : α} (h : Q a) : (pure a : Phrase T α).Gives P Q := fun _ _ => h

theorem Gives.opt (hA : A.Gives P Q) : A.opt.Gives P fun o => ∀ a ∈ o, Q a
  | none, _ => nofun
  | some d, hd => by
    intro a ha
    cases ha
    exact hA d hd

theorem Gives.many (hA : A.Gives P Q) : A.many.Gives P fun l => ∀ a ∈ l, Q a := by
  intro d hd a ha
  obtain ⟨e, he, rfl⟩ := List.mem_map.mp ha
  exact hA e fun t ht => hd t (List.mem_flatMap.mpr ⟨e, he, ht⟩)

theorem Gives.either {B : Phrase T α} (hA : A.Gives P Q) (hB : B.Gives P Q) :
    (A.either B).Gives P Q
  | .inl d, hd => hA d hd
  | .inr d, hd => hB d hd

end Gives

/-! ## Tokens that are read alike -/

/-- The parts of a list that is related to a concatenation. -/
theorem forall₂_append_cases {R : T → T → Prop} {a b w : List T} (h : List.Forall₂ R (a ++ b) w) :
    ∃ a' b', w = a' ++ b' ∧ List.Forall₂ R a a' ∧ List.Forall₂ R b b' := by
  induction a generalizing w with
  | nil => exact ⟨[], w, rfl, .nil, h⟩
  | cons t a ih =>
    cases h with
    | cons ht h =>
      obtain ⟨a', b', rfl, ha, hb⟩ := ih h
      exact ⟨_ :: a', b', rfl, .cons ht ha, hb⟩

/-- Where each token is replaced by one that `R` relates it to, there is a tree again, and it means
the same. -/
def Respects (A : Phrase T α) (R : T → T → Prop) : Prop :=
  ∀ d w, List.Forall₂ R (A.yield d) w → ∃ d', A.yield d' = w ∧ A.value d' = A.value d

section Respects

variable {A : Phrase T α} {R : T → T → Prop}

theorem respects_token {p : T → Option α} (h : ∀ t t', R t t' → p t' = p t) :
    (token p).Respects R := by
  rintro ⟨t, ht⟩ w (_ | ⟨hR, _ | _⟩)
  have hp := h _ _ hR
  refine ⟨⟨_, by rw [hp]; exact ht⟩, rfl, ?_⟩
  simp only [hp]

theorem respects_pure (a : α) : (pure a : Phrase T α).Respects R := by
  rintro ⟨⟩ w (_ | _)
  exact ⟨(), rfl, rfl⟩

theorem Respects.bind {B : α → Phrase T β} (hA : A.Respects R) (hB : ∀ a, (B a).Respects R) :
    (A >>= B).Respects R := by
  rintro ⟨d, b⟩ w h
  obtain ⟨wa, wb, rfl, ha, hb⟩ := forall₂_append_cases h
  obtain ⟨d', rfl, hd⟩ := hA d wa ha
  obtain ⟨b', rfl, hb'⟩ := hB _ b wb hb
  -- the second part goes with the meaning of the first, which is the same
  have hpair : ∀ a, (hd' : A.value d' = a) → ∀ c : (B a).Tree, ∃ e : (A >>= B).Tree,
      (A >>= B).yield e = A.yield d' ++ (B a).yield c ∧ (A >>= B).value e = (B a).value c := by
    rintro a rfl c
    exact ⟨⟨d', c⟩, rfl, rfl⟩
  obtain ⟨e, he, hv⟩ := hpair _ hd b'
  exact ⟨e, he, hv.trans hb'⟩

theorem Respects.reword (hA : A.Respects R) (f : α → β) : (A.reword f).Respects R := by
  intro d w h
  obtain ⟨d', hd, hv⟩ := hA d w h
  exact ⟨d', hd, congrArg f hv⟩

theorem Respects.opt (hA : A.Respects R) : A.opt.Respects R
  | none, _, .nil => ⟨none, rfl, rfl⟩
  | some d, w, h => by
    obtain ⟨d', hd, hv⟩ := hA d w h
    exact ⟨some d', hd, congrArg some hv⟩

theorem Respects.many (hA : A.Respects R) : A.many.Respects R := by
  intro ds
  induction ds with
  | nil =>
    rintro w (_ | _)
    exact ⟨[], rfl, rfl⟩
  | cons d ds ih =>
    intro w h
    obtain ⟨w₁, w₂, rfl, h₁, h₂⟩ := forall₂_append_cases h
    obtain ⟨d', rfl, hd⟩ := hA d w₁ h₁
    obtain ⟨ds', rfl, hds⟩ := ih w₂ h₂
    exact ⟨d' :: ds', rfl, congrArg₂ List.cons hd hds⟩

theorem Respects.either {B : Phrase T α} (hA : A.Respects R) (hB : B.Respects R) :
    (A.either B).Respects R
  | .inl d, w, h => by
    obtain ⟨d', hd, hv⟩ := hA d w h
    exact ⟨.inl d', hd, hv⟩
  | .inr d, w, h => by
    obtain ⟨d', hd, hv⟩ := hB d w h
    exact ⟨.inr d', hd, hv⟩

end Respects

end Phrase
