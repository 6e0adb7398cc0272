import Choam.Lib.Except
import Choam.Lib.Grammar

/-!
# Parsers that read a grammar exactly

`Reads L A ts x` says all there is to say of the result `x` of reading an `A` off the tokens `ts`.
A result stands for a tree at the front of `ts` that ends where the rest starts. An error stands
for tokens `p` at the front that a tree can start with, but no longer with the token behind them,
or with no token where there is none; `L p r e` says that the error `e` reports the place behind
`p`, at the tokens `r`. So a reader of this kind accepts what the grammar derives
(`Reads.complete`), and its errors stand at the first token that no phrase goes on with.

Tokens carry places of some type `P`, which the grammar does not look at.
-/

variable {T P E α β γ : Type}

namespace Phrase

/-- A tree can start with `p`. -/
def Viable (A : Phrase T α) (p : List T) : Prop := ∃ d q, A.yield d = p ++ q

/-- No input that starts with a tree goes on after `p` with the token `o`, or ends there. -/
def Blocked (A : Phrase T α) (p : List T) (o : Option T) : Prop :=
  ∀ d c c', A.Stops d c → A.yield d ++ c = p ++ c' → c'.head? ≠ o

section

variable (L : List (T × P) → List (T × P) → E → Prop)

/-- Where an error stands does not change when a phrase is put in front. -/
def Carries (A : Phrase T α) : Prop :=
  ∀ d w p r e, w.map Prod.fst = A.yield d → L p r e → L (w ++ p) r e

/-- A phrase that a reader of one token ahead can deal with. -/
structure Lawful (A : Phrase T α) : Prop where
  nonempty : Nonempty A.Tree
  unambiguous : ∀ n, A.Unambiguous n
  carries : A.Carries L

/-- `x` comes of reading an `A` off `ts`. -/
inductive Reads (A : Phrase T α) {Q : List (T × P) → Prop} (ts : List (T × P)) :
    Except E (α × {r : List (T × P) // Q r}) → Prop
  | ok (d : A.Tree) (w : List (T × P)) (r : {r : List (T × P) // Q r}) (split : ts = w ++ r.val)
      (yield : w.map Prod.fst = A.yield d) (stops : A.Stops d (r.val.map Prod.fst)) :
      Reads A ts (.ok (A.value d, r))
  | error (p r : List (T × P)) (e : E) (split : ts = p ++ r) (at_ : L p r e)
      (viable : A.Viable (p.map Prod.fst))
      (blocked : A.Blocked (p.map Prod.fst) (r.map Prod.fst).head?) : Reads A ts (.error e)

end

variable {L : List (T × P) → List (T × P) → E → Prop}

/-! ## Phrases that are read token by token -/

theorem carries_token {p : T → Option α}
    (h : ∀ t p' r e, (p t.1).isSome → L p' r e → L (t :: p') r e) : (token p).Carries L := by
  intro d w p' r e hw hat
  obtain ⟨t, rfl, ht⟩ := List.map_eq_singleton_iff.mp hw
  refine h t p' r e ?_ hat
  rw [ht]
  exact d.property

theorem Carries.bind {A : Phrase T α} {B : α → Phrase T β} (hA : A.Carries L)
    (hB : ∀ a, (B a).Carries L) : (A >>= B).Carries L := by
  intro d w p r e hw hat
  obtain ⟨w₁, w₂, rfl, h₁, h₂⟩ := List.map_eq_append_iff.mp hw
  rw [List.append_assoc]
  exact hA d.1 w₁ _ r e h₁ (hB _ d.2 w₂ p r e h₂ hat)

theorem Carries.opt {A : Phrase T α} (hA : A.Carries L) : A.opt.Carries L := by
  intro d w p r e hw hat
  cases d with
  | none =>
    rw [List.map_eq_nil_iff.mp hw]
    exact hat
  | some d => exact hA d w p r e hw hat

theorem Carries.many {A : Phrase T α} (hA : A.Carries L) : A.many.Carries L := by
  intro d
  induction d with
  | nil =>
    intro w p r e hw hat
    rw [List.map_eq_nil_iff.mp hw]
    exact hat
  | cons d ds ih =>
    intro w p r e hw hat
    obtain ⟨w₁, w₂, rfl, h₁, h₂⟩ := List.map_eq_append_iff.mp hw
    rw [List.append_assoc]
    exact hA d w₁ _ r e h₁ (ih w₂ p r e h₂ hat)

theorem lawful_token {p : T → Option α} (hne : ∃ t, (p t).isSome)
    (h : ∀ t p' r e, (p t.1).isSome → L p' r e → L (t :: p') r e) : (token p).Lawful L where
  nonempty := let ⟨t, ht⟩ := hne; ⟨⟨t, ht⟩⟩
  unambiguous := unambiguous_token p
  carries := carries_token h

theorem lawful_pure (a : α) : (pure a : Phrase T α).Lawful L where
  nonempty := ⟨()⟩
  unambiguous := unambiguous_pure a
  carries := by
    intro _ w p r e hw hat
    rw [List.map_eq_nil_iff.mp hw]
    exact hat

theorem Lawful.bind {A : Phrase T α} {B : α → Phrase T β} (hA : A.Lawful L) (hAB : A.Meets B)
    (hB : ∀ a, (B a).Lawful L) : (A >>= B).Lawful L where
  nonempty := by
    obtain ⟨d⟩ := hA.nonempty
    obtain ⟨b⟩ := (hB (A.value d)).nonempty
    exact ⟨⟨d, b⟩⟩
  unambiguous n := (hA.unambiguous n).bind hAB fun d => (hB _).unambiguous _
  carries := hA.carries.bind fun a => (hB a).carries

theorem Lawful.after {p : T → Option α} {B : α → Phrase T β} (hp : (token p).Lawful L)
    (hB : ∀ a, (B a).Lawful L) : (token p >>= B).Lawful L :=
  hp.bind (meets_token p B) hB

theorem Lawful.opt {A : Phrase T α} {F : T → Prop} (hA : A.Lawful L) (hF : A.Heads F) :
    A.opt.Lawful L where
  nonempty := ⟨none⟩
  unambiguous n := (hA.unambiguous n).opt hF
  carries := hA.carries.opt

theorem Lawful.many {A : Phrase T α} {F : T → Prop} (hA : A.Lawful L) (hF : A.Heads F)
    (hAA : A.Meets fun _ => A) : A.many.Lawful L where
  nonempty := ⟨[]⟩
  unambiguous n := (hA.unambiguous n).many hF hAA
  carries := hA.carries.many

theorem Lawful.reword {A : Phrase T α} (hA : A.Lawful L) (f : α → β) :
    (A.reword f).Lawful L where
  nonempty := hA.nonempty
  unambiguous := hA.unambiguous
  carries := hA.carries

theorem Lawful.either {A B : Phrase T α} {F G : T → Prop} (hA : A.Lawful L) (hB : B.Lawful L)
    (hF : A.Heads F) (hG : B.Heads G) (hFG : ∀ t, F t → ¬ G t) : (A.either B).Lawful L where
  nonempty := hA.nonempty.map .inl
  unambiguous n := (hA.unambiguous n).either (hB.unambiguous n) hF hG hFG
  carries
    | .inl d => hA.carries d
    | .inr d => hB.carries d

/-! ## Reading -/

/-- What a reader accepts is what the grammar derives. -/
theorem Reads.complete {A : Phrase T α} {Q : List (T × P) → Prop} {ts : List (T × P)}
    {x : Except E (α × {r : List (T × P) // Q r})} (h : A.Reads L ts x)
    (hA : ∀ n, A.Unambiguous n) {d : A.Tree} {w c : List (T × P)} (hts : ts = w ++ c)
    (hw : w.map Prod.fst = A.yield d) (hs : A.Stops d (c.map Prod.fst)) :
    ∃ hc, x = .ok (A.value d, ⟨c, hc⟩) := by
  have hmap : ts.map Prod.fst = A.yield d ++ c.map Prod.fst := by
    rw [hts, List.map_append, hw]
  cases h with
  | ok d' w' r split yield stops =>
    have heq : A.yield d ++ c.map Prod.fst = A.yield d' ++ r.val.map Prod.fst := by
      rw [← hmap, split, List.map_append, yield]
    obtain rfl := hA _ d d' _ _ hs stops heq (Nat.lt_succ_self _)
    have hlen : w.length = w'.length := by
      rw [← List.length_map (f := Prod.fst), hw, ← yield, List.length_map]
    obtain ⟨-, rfl⟩ := List.append_inj (hts.symm.trans split) hlen
    exact ⟨r.property, rfl⟩
  | error p r e split _ _ blocked =>
    refine (blocked d (c.map Prod.fst) (r.map Prod.fst) hs ?_ rfl).elim
    rw [← hmap, split, List.map_append]

theorem Reads.pure {Q : List (T × P) → Prop} (a : α) (ts : List (T × P)) (hts : Q ts) :
    (pure a : Phrase T α).Reads L ts (.ok (a, ⟨ts, hts⟩)) :=
  .ok () [] ⟨ts, hts⟩ rfl rfl fun _ _ => trivial

/-- Reading a sequence is reading one part and then the other. -/
theorem Reads.bind {A : Phrase T α} {B : α → Phrase T β} {Q Q' : List (T × P) → Prop}
    {ts : List (T × P)} {x : Except E (α × {r : List (T × P) // Q r})}
    {g : α × {r : List (T × P) // Q r} → Except E (β × {r : List (T × P) // Q' r})}
    (hA : A.Lawful L) (hAB : A.Meets B) (hB : ∀ a, Nonempty (B a).Tree)
    (hx : A.Reads L ts x) (hg : ∀ a r, x = .ok (a, r) → (B a).Reads L r.val (g (a, r))) :
    (A >>= B).Reads L ts (x >>= g) := by
  cases hx with
  | error p r e split at_ viable blocked =>
    refine .error p r e split at_ ?_ ?_
    · obtain ⟨d, q, hd⟩ := viable
      obtain ⟨b⟩ := hB (A.value d)
      refine ⟨⟨d, b⟩, q ++ (B (A.value d)).yield b, ?_⟩
      rw [yield_bind, hd, List.append_assoc]
    · intro d c c' hs heq
      rw [yield_bind, List.append_assoc] at heq
      exact blocked d.1 _ c' (Stops.split hAB hs).2 heq
  | ok d w r split yield stops =>
    have h := hg (A.value d) r rfl
    change (A >>= B).Reads L ts (g (A.value d, r))
    generalize g (A.value d, r) = y at h
    cases h with
    | ok b w' r' split' yield' stops' =>
      refine .ok (A := A >>= B) ⟨d, b⟩ (w ++ w') r' ?_ ?_ ?_
      · rw [split, split', List.append_assoc]
      · rw [List.map_append, yield, yield', yield_bind]
      · refine Stops.join stops' ?_
        rw [← yield', ← List.map_append, ← split']
        exact stops
    | error p r' e split' at_ viable blocked =>
      refine .error (w ++ p) r' e ?_ (hA.carries d w p r' e yield at_) ?_ ?_
      · rw [split, split', List.append_assoc]
      · obtain ⟨b, q, hb⟩ := viable
        refine ⟨⟨d, b⟩, q, ?_⟩
        rw [yield_bind, hb, List.map_append, yield, List.append_assoc]
      · intro d' c c' hs heq hhead
        rw [yield_bind, List.map_append, yield, List.append_assoc, List.append_assoc] at heq
        have hstops : A.Stops d (p.map Prod.fst ++ c') := by
          refine (stops_congr ?_).mp stops
          rw [split', List.map_append, List.head?_append, List.head?_append, hhead]
        obtain ⟨d', b'⟩ := d'
        have hs' := Stops.split hAB hs
        obtain rfl := hA.unambiguous _ d' d _ _ hs'.2 hstops heq (Nat.lt_succ_self _)
        exact blocked b' c c' hs'.1 (List.append_cancel_left heq) hhead

/-- Reading a sequence whose first part means nothing. -/
theorem Reads.skip {A : Phrase T Unit} {B : Unit → Phrase T β} {Q Q' : List (T × P) → Prop}
    {ts : List (T × P)} {x : Except E {r : List (T × P) // Q r}}
    {g : {r : List (T × P) // Q r} → Except E (β × {r : List (T × P) // Q' r})}
    (hA : A.Lawful L) (hAB : A.Meets B) (hB : Nonempty (B ()).Tree)
    (hx : A.Reads L ts (x.map fun r => ((), r)))
    (hg : ∀ r, x = .ok r → (B ()).Reads L r.val (g r)) : (A >>= B).Reads L ts (x >>= g) := by
  have h := hx.bind (g := fun y => g y.2) hA hAB (fun _ => hB) (by
    intro _ r hr
    refine hg r ?_
    cases x with
    | error e => cases hr
    | ok r' =>
      cases hr
      rfl)
  cases x with
  | error e => exact h
  | ok r => exact h

/-- A phrase that one token chooses: `f` makes the trees that can be there, and `other` says that
the trees it does not make start with another token. -/
theorem Reads.choose {A C : Phrase T α} {Q : List (T × P) → Prop} {ts : List (T × P)}
    {x : Except E (α × {r : List (T × P) // Q r})} {f : A.Tree → C.Tree} (hx : A.Reads L ts x)
    (h : Cover A C f)
    (other : ∀ d c, (∀ d', f d' ≠ d) → C.Stops d c →
      (C.yield d ++ c).head? ≠ (ts.map Prod.fst).head?) : C.Reads L ts x := by
  cases hx with
  | ok d w r split yield stops =>
    rw [← h.value d]
    refine .ok (f d) w r split (yield.trans (h.yield d).symm) ?_
    exact fun t ht => (h.stop d t).mpr (stops t ht)
  | error p r e split at_ viable blocked =>
    refine .error p r e split at_ ?_ ?_
    · obtain ⟨d, q, hd⟩ := viable
      exact ⟨f d, q, (h.yield d).trans hd⟩
    · intro d c c' hs heq hhead
      by_cases hd : ∃ d', f d' = d
      · obtain ⟨d, rfl⟩ := hd
        rw [h.yield] at heq
        exact blocked d c c' (fun t ht => (h.stop d t).mp (hs t ht)) heq hhead
      · refine other d c (not_exists.mp hd) hs ?_
        rw [heq, split, List.map_append, List.head?_append, List.head?_append, hhead]

theorem Reads.cover {A C : Phrase T α} {Q : List (T × P) → Prop} {ts : List (T × P)}
    {x : Except E (α × {r : List (T × P) // Q r})} {f : A.Tree → C.Tree} (hx : A.Reads L ts x)
    (h : Cover A C f) (hf : f.Surjective) : C.Reads L ts x :=
  hx.choose h fun d _ hd => (hf d).elim fun d' hd' => absurd hd' (hd d')

theorem Heads.not_head {A : Phrase T α} {F : T → Prop} (hA : A.Heads F) (d : A.Tree) (c : List T)
    {ts : List (T × P)} (hts : ∀ t ∈ ts.head?, ¬ F t.1) :
    (A.yield d ++ c).head? ≠ (ts.map Prod.fst).head? := by
  intro hhead
  obtain ⟨t, ht, -, hF⟩ := hA.head_append d c
  have hmap : (ts.map Prod.fst).head? = some t := hhead.symm.trans ht
  rw [List.head?_map, Option.map_eq_some_iff] at hmap
  obtain ⟨t', ht', rfl⟩ := hmap
  exact hts t' ht' hF

/-- An error at the first token, with which no tree starts. -/
theorem Reads.fail {A : Phrase T α} {Q : List (T × P) → Prop} {ts : List (T × P)} {e : E}
    (hat : L [] ts e) (hne : Nonempty A.Tree) {F : T → Prop} (hA : A.Heads F)
    (hts : ∀ t ∈ ts.head?, ¬ F t.1) :
    A.Reads L ts (.error e : Except E (α × {r : List (T × P) // Q r})) := by
  refine .error [] ts e rfl hat ?_ ?_
  · obtain ⟨d⟩ := hne
    exact ⟨d, A.yield d, rfl⟩
  · intro d c c' _ heq hhead
    refine hA.not_head d c hts ?_
    rw [heq, List.map_nil, List.nil_append, hhead]

theorem Reads.token {p : T → Option α} {Q : List (T × P) → Prop} {t : T × P}
    {r : List (T × P)} {a : α} (ht : p t.1 = some a) (hts : Q r) :
    (token p).Reads L (t :: r) (.ok (a, ⟨r, hts⟩) : Except E (α × {s : List (T × P) // Q s})) := by
  have hsome : (p t.1).isSome := by rw [ht]; rfl
  obtain rfl : (p t.1).get hsome = a := by simp [ht]
  exact .ok (A := Phrase.token p) ⟨t.1, hsome⟩ [t] ⟨r, hts⟩ rfl rfl (stops_token p _ _)

theorem Reads.no_token {p : T → Option α} {Q : List (T × P) → Prop} {ts : List (T × P)} {e : E}
    (hat : L [] ts e) (hne : ∃ t, (p t).isSome) (hts : ∀ t ∈ ts.head?, p t.1 = none) :
    (Phrase.token p).Reads L ts (.error e : Except E (α × {r : List (T × P) // Q r})) := by
  refine .fail hat ?_ (heads_token fun _ h => h) ?_
  · obtain ⟨t, ht⟩ := hne
    exact ⟨⟨t, ht⟩⟩
  · intro t ht
    simp [hts t ht]

/-- Reading on behind a token. -/
theorem Reads.after {p : T → Option α} {B : α → Phrase T β} {Q : List (T × P) → Prop} {t : T × P}
    {ts : List (T × P)} {a : α} {y : Except E (β × {r : List (T × P) // Q r})}
    (hp : (Phrase.token p).Lawful L) (hB : ∀ a, Nonempty (B a).Tree) (ht : p t.1 = some a)
    (hy : (B a).Reads L ts y) : (Phrase.token p >>= B).Reads L (t :: ts) y := by
  have hx := Reads.token (L := L) (E := E) (Q := fun _ => True) (r := ts) ht trivial
  refine hx.bind (g := fun _ => y) hp (meets_token p B) hB ?_
  intro a' r hr
  cases hr
  exact hy

/-- A reader that makes something else of what it has read. -/
theorem Reads.finish {A : Phrase T α} {Q Q' : List (T × P) → Prop} {ts : List (T × P)}
    {x : Except E (α × {r : List (T × P) // Q r})} {f : α → β}
    {g : α × {r : List (T × P) // Q r} → Except E (β × {r : List (T × P) // Q' r})}
    (hx : A.Reads L ts x) (hg : ∀ a r, ∃ hr, g (a, r) = .ok (f a, ⟨r.val, hr⟩)) :
    (A.reword f).Reads L ts (x >>= g) := by
  cases hx with
  | ok d w r split yield stops =>
    obtain ⟨hr, hgr⟩ := hg (A.value d) r
    change (A.reword f).Reads L ts (g (A.value d, r))
    rw [hgr]
    exact .ok (A := A.reword f) d w ⟨r.val, hr⟩ split yield stops
  | error p r e split at_ viable blocked => exact .error p r e split at_ viable blocked

/-! ## Optional, alternative and repeated phrases -/

theorem Reads.left {A B : Phrase T α} {F : T → Prop} {Q : List (T × P) → Prop}
    {ts : List (T × P)} {x : Except E (α × {r : List (T × P) // Q r})} (hx : A.Reads L ts x)
    (hB : B.Heads F) (hts : ∀ t ∈ ts.head?, ¬ F t.1) : (A.either B).Reads L ts x := by
  refine hx.choose (f := Sum.inl) ⟨fun _ => rfl, fun _ => rfl, fun _ _ => Iff.rfl⟩ ?_
  intro d c hd _ hhead
  rcases d with d | d
  · exact hd d rfl
  · exact hB.not_head d c hts hhead

theorem Reads.right {A B : Phrase T α} {F : T → Prop} {Q : List (T × P) → Prop}
    {ts : List (T × P)} {x : Except E (α × {r : List (T × P) // Q r})} (hx : B.Reads L ts x)
    (hA : A.Heads F) (hts : ∀ t ∈ ts.head?, ¬ F t.1) : (A.either B).Reads L ts x := by
  refine hx.choose (f := Sum.inr) ⟨fun _ => rfl, fun _ => rfl, fun _ _ => Iff.rfl⟩ ?_
  intro d c hd _ hhead
  rcases d with d | d
  · exact hA.not_head d c hts hhead
  · exact hd d rfl

/-- What follows either of two phrases follows each. -/
theorem Reads.either_bind {A B : Phrase T α} {C : α → Phrase T β} {Q : List (T × P) → Prop}
    {ts : List (T × P)} {x : Except E (β × {r : List (T × P) // Q r})}
    (hx : ((A >>= C).either (B >>= C)).Reads L ts x) : (A.either B >>= C).Reads L ts x := by
  let distribute : ((A >>= C).either (B >>= C)).Tree → (A.either B >>= C).Tree
    | .inl d => ⟨.inl d.1, d.2⟩
    | .inr d => ⟨.inr d.1, d.2⟩
  refine hx.cover (f := distribute) ⟨?_, ?_, ?_⟩ ?_
  · rintro (d | d) <;> rfl
  · rintro (d | d) <;> rfl
  · rintro (d | d) t <;> rfl
  · rintro ⟨d | d, c⟩
    · exact ⟨.inl ⟨d, c⟩, rfl⟩
    · exact ⟨.inr ⟨d, c⟩, rfl⟩


theorem Reads.opt_none {A : Phrase T α} {Q : List (T × P) → Prop} {r : List (T × P)}
    (h : ∀ t ∈ r.head?, ¬ A.Starts t.1) (hts : Q r) :
    A.opt.Reads L r (.ok (none, ⟨r, hts⟩) : Except E (Option α × {s : List (T × P) // Q s})) := by
  refine .ok (A := A.opt) none [] ⟨r, hts⟩ rfl rfl ?_
  intro t ht
  rw [List.head?_map, Option.mem_def, Option.map_eq_some_iff] at ht
  obtain ⟨t', ht', rfl⟩ := ht
  exact h t' ht'

theorem Reads.opt_some {A : Phrase T α} {Q : List (T × P) → Prop} {ts : List (T × P)}
    {x : Except E (Option α × {r : List (T × P) // Q r})} {t : T × P} (ht : t ∈ ts.head?)
    (hstart : A.Starts t.1) (hx : (A.reword some).Reads L ts x) : A.opt.Reads L ts x := by
  refine hx.choose (f := some) ⟨fun _ => rfl, fun _ => rfl, fun _ _ => Iff.rfl⟩ ?_
  intro d c hd hs hhead
  cases d with
  | some d => exact hd d rfl
  | none =>
    refine hs t.1 ?_ hstart
    rw [List.head?_map, Option.mem_def.mp ht] at hhead
    exact hhead

theorem Reads.opt_token {p : T → Option α} {Q : List (T × P) → Prop} {t : T × P}
    {r : List (T × P)} {a : α} (ht : p t.1 = some a) (hts : Q r) :
    (Phrase.token p).opt.Reads L (t :: r)
      (.ok (some a, ⟨r, hts⟩) : Except E (Option α × {s : List (T × P) // Q s})) := by
  have hx := Reads.token (L := L) (E := E) (Q := Q) (r := r) ht hts
  refine .opt_some rfl (starts_token.mpr (by rw [ht]; rfl)) ?_
  exact hx.finish (g := fun y => .ok (some y.1, y.2)) fun _ r => ⟨r.property, rfl⟩

theorem Reads.many_nil {A : Phrase T α} {Q : List (T × P) → Prop} {ts : List (T × P)}
    (h : ∀ t ∈ ts.head?, ¬ A.Starts t.1) (hts : Q ts) (f : List α → β) :
    (A.many.reword f).Reads L ts
      (.ok (f [], ⟨ts, hts⟩) : Except E (β × {r : List (T × P) // Q r})) := by
  refine .ok (A := A.many.reword f) [] [] ⟨ts, hts⟩ rfl rfl ?_
  intro t ht
  rw [List.head?_map, Option.mem_def, Option.map_eq_some_iff] at ht
  obtain ⟨t', ht', rfl⟩ := ht
  exact ⟨h t' ht', fun e he => by cases he⟩

theorem Reads.many_cons {A : Phrase T α} {F : T → Prop} {Q : List (T × P) → Prop}
    {ts : List (T × P)} {x : Except E (β × {r : List (T × P) // Q r})} {f : List α → β}
    {t : T × P} (hA : A.Heads F) (ht : t ∈ ts.head?) (hstart : A.Starts t.1)
    (hx : (A >>= fun a => A.many.reword fun l => f (a :: l)).Reads L ts x) :
    (A.many.reword f).Reads L ts x := by
  let join : (A >>= fun a => A.many.reword fun l => f (a :: l)).Tree → (A.many.reword f).Tree :=
    fun d => d.1 :: d.2
  refine hx.choose (f := join) ⟨fun _ => rfl, fun _ => rfl, ?_⟩ ?_
  · rintro ⟨d, ds⟩ t
    change (¬ A.Starts t ∧ ∀ e ∈ (d :: ds).getLast?, A.Stop e t) ↔
      (¬ A.Starts t ∧ ∀ e ∈ ds.getLast?, A.Stop e t) ∧ (ds.flatMap A.yield = [] → A.Stop d t)
    cases ds with
    | nil => simp
    | cons e es => simp [hA.ne_nil e]
  · intro d c hd hs hhead
    cases d with
    | cons d ds => exact hd ⟨d, ds⟩ rfl
    | nil =>
      refine (hs t.1 ?_).1 hstart
      rw [List.head?_map, Option.mem_def.mp ht] at hhead
      exact hhead

theorem Reads.pure_bind {a : α} {B : α → Phrase T β} {Q : List (T × P) → Prop}
    {ts : List (T × P)} {x : Except E (β × {r : List (T × P) // Q r})}
    (hx : (B a).Reads L ts x) : (Pure.pure a >>= B).Reads L ts x := by
  let behind : (B a).Tree → (Pure.pure a >>= B).Tree := fun d => ⟨(), d⟩
  refine hx.cover (f := behind) ⟨fun _ => rfl, fun _ => rfl, fun d t => ?_⟩ fun d => ⟨d.2, rfl⟩
  exact ⟨And.left, fun h => ⟨h, fun _ => trivial⟩⟩

/-- Sequences associate. -/
theorem Reads.assoc {A : Phrase T α} {B : α → Phrase T β} {C : β → Phrase T γ}
    {Q : List (T × P) → Prop} {ts : List (T × P)}
    {x : Except E (γ × {r : List (T × P) // Q r})}
    (hx : (A >>= fun a => B a >>= C).Reads L ts x) : (A >>= B >>= C).Reads L ts x := by
  let regroup : (A >>= fun a => B a >>= C).Tree → (A >>= B >>= C).Tree :=
    fun d => ⟨⟨d.1, d.2.1⟩, d.2.2⟩
  refine hx.cover (f := regroup) ⟨?_, ?_, ?_⟩ ?_
  · rintro ⟨d, e, c⟩
    exact List.append_assoc _ _ _
  · intro d
    rfl
  · rintro ⟨d, e, c⟩ t
    change (_ ∧ ((C _).yield c = [] → _ ∧ ((B _).yield e = [] → A.Stop d t))) ↔
      (_ ∧ ((C _).yield c = [] → _)) ∧ ((B _).yield e ++ (C _).yield c = [] → A.Stop d t)
    rw [List.append_eq_nil_iff]
    constructor
    · intro h
      exact ⟨⟨h.1, fun hc => (h.2 hc).1⟩, fun hec => (h.2 hec.2).2 hec.1⟩
    · intro h
      exact ⟨h.1.1, fun hc => ⟨h.1.2 hc, fun he => h.2 ⟨he, hc⟩⟩⟩
  · rintro ⟨⟨d, e⟩, c⟩
    exact ⟨⟨d, e, c⟩, rfl⟩

/-! ## Left recursion -/

/-- Reading a left-recursive phrase is reading the first part and then the steps. -/
theorem Chain.reads {S : Phrase T α} {X : Phrase T (α → α)} {C : Phrase T α} (h : Chain S X C)
    {F : T → Prop} (hX : X.Heads F) (hS : S.Lawful L) (hSX : ∀ s t, X.Starts t → S.Stop s t)
    {Q Q' : List (T × P) → Prop} {ts : List (T × P)}
    {x : Except E (α × {r : List (T × P) // Q r})}
    {g : α × {r : List (T × P) // Q r} → Except E (α × {r : List (T × P) // Q' r})}
    (hx : S.Reads L ts x)
    (hg : ∀ a r, x = .ok (a, r) → (steps X a).Reads L r.val (g (a, r))) :
    C.Reads L ts (x >>= g) :=
  (Reads.bind hS (meets hSX) (fun _ => ⟨[]⟩) hx hg).cover (h.cover hX) h.make_surjective

end Phrase
