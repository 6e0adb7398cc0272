import Mathlib.Logic.Basic

/-!
# Programs over an interface

A `Prog Op Res α` asks for operations `o : Op`, goes on with an answer of type `Res o`, and ends
with an `α`. What an operation does is left to a handler: `run` executes a program alone, from a
state, under one. Nothing is fixed about what happens between two operations, so the same program
can also be interleaved with others (`Lib.Interleave`).

The rules: `run` follows `bind` (`run_bind`); `Ensures` is what a program does whatever it is
answered, and `Ensures.run` brings it to a run; two handlers that answer alike along a run, from
related states, give the same result (`run_sim`); a program can be compiled to another interface
while threading a state (`interp`), also by operations that can put an end to it (`interpUntil`);
what it can end with is `MayEnd`; and it can be compared with another one up to where they part
(`Parts`).
-/

/-- A program that asks for operations of `Op`, answered in `Res`. -/
inductive Prog (Op : Type) (Res : Op → Type) (α : Type) where
  | done (a : α)
  | call (o : Op) (next : Res o → Prog Op Res α)

namespace Prog

variable {Op : Type} {Res : Op → Type} {α β S T : Type}

/-- Sequencing. -/
protected def bind : Prog Op Res α → (α → Prog Op Res β) → Prog Op Res β
  | done a, f => f a
  | call o next, f => call o fun r => (next r).bind f

instance : Monad (Prog Op Res) where
  pure := done
  bind := Prog.bind

/-- Ask for one operation. -/
def perform (o : Op) : Prog Op Res (Res o) := call o done

@[simp] theorem pure_eq (a : α) : (pure a : Prog Op Res α) = done a := rfl

@[simp] theorem done_bind (a : α) (f : α → Prog Op Res β) : done a >>= f = f a := rfl

@[simp] theorem call_bind (o : Op) (next : Res o → Prog Op Res α) (f : α → Prog Op Res β) :
    call o next >>= f = call o fun r => next r >>= f := rfl

theorem bind_done (p : Prog Op Res α) : p >>= done = p := by
  induction p with
  | done a => rfl
  | call o next ih => simp [ih]

theorem bind_assoc' {γ : Type} (p : Prog Op Res α) (f : α → Prog Op Res β)
    (g : β → Prog Op Res γ) : p >>= f >>= g = p >>= fun a => f a >>= g := by
  induction p with
  | done a => rfl
  | call o next ih => simp [ih]

instance : LawfulMonad (Prog Op Res) :=
  LawfulMonad.mk' _ bind_done (fun _ _ => rfl) bind_assoc'

/-! ## Running alone -/

/-- The program executed alone from the state `s`, each operation answered by `handle`. -/
def run (handle : (o : Op) → S → Res o × S) : Prog Op Res α → S → α × S
  | done a, s => (a, s)
  | call o next, s => (next (handle o s).1).run handle (handle o s).2

variable {handle : (o : Op) → S → Res o × S}

@[simp] theorem run_done (a : α) (s : S) : (done a : Prog Op Res α).run handle s = (a, s) := rfl

@[simp] theorem run_call (o : Op) (next : Res o → Prog Op Res α) (s : S) :
    (call o next).run handle s = (next (handle o s).1).run handle (handle o s).2 := rfl

@[simp] theorem run_perform (o : Op) (s : S) :
    (perform o : Prog Op Res (Res o)).run handle s = handle o s := rfl

@[simp] theorem run_bind (p : Prog Op Res α) (f : α → Prog Op Res β) (s : S) :
    (p >>= f).run handle s = (f (p.run handle s).1).run handle (p.run handle s).2 := by
  induction p generalizing s with
  | done a => rfl
  | call o next ih => exact ih _ _

@[simp] theorem run_map (p : Prog Op Res α) (f : α → β) (s : S) :
    (f <$> p).run handle s = (f (p.run handle s).1, (p.run handle s).2) := by
  rw [map_eq_pure_bind]
  simp

/-! ## What a program does, whatever it is answered -/

/-- If every answer satisfies `ans`, the program asks only for operations that satisfy `P`, and
what it ends with satisfies `Q`. -/
def Ensures (ans : (o : Op) → Res o → Prop) (P : Op → Prop) : Prog Op Res α → (α → Prop) → Prop
  | done a, Q => Q a
  | call o next, Q => P o ∧ ∀ r, ans o r → (next r).Ensures ans P Q

section Ensures

variable {ans : (o : Op) → Res o → Prop} {P : Op → Prop} {Q Q' : α → Prop} {R : β → Prop}

@[simp] theorem ensures_done {a : α} : (done a : Prog Op Res α).Ensures ans P Q ↔ Q a := Iff.rfl

@[simp] theorem ensures_call {o : Op} {next : Res o → Prog Op Res α} :
    (call o next).Ensures ans P Q ↔ P o ∧ ∀ r, ans o r → (next r).Ensures ans P Q := Iff.rfl

@[simp] theorem ensures_perform {o : Op} {Q : Res o → Prop} :
    (perform o : Prog Op Res (Res o)).Ensures ans P Q ↔ P o ∧ ∀ r, ans o r → Q r := Iff.rfl

theorem Ensures.mono {p : Prog Op Res α} (h : p.Ensures ans P Q) (hQ : ∀ a, Q a → Q' a) :
    p.Ensures ans P Q' := by
  induction p with
  | done a => exact hQ a h
  | call o next ih => exact ⟨h.1, fun r hr => ih r (h.2 r hr)⟩

theorem ensures_bind {p : Prog Op Res α} {f : α → Prog Op Res β} :
    (p >>= f).Ensures ans P R ↔ p.Ensures ans P fun a => (f a).Ensures ans P R := by
  induction p with
  | done a => rfl
  | call o next ih => exact and_congr_right fun _ => forall_congr' fun r => imp_congr_right fun _ => ih r

theorem ensures_true (p : Prog Op Res α) : p.Ensures ans (fun _ => True) fun _ => True := by
  induction p with
  | done a => trivial
  | call o next ih => exact ⟨trivial, fun r _ => ih r⟩

/-- What follows a program, whatever that ended with. -/
theorem ensures_bind_of {p : Prog Op Res α} {f : α → Prog Op Res β}
    (h : ∀ a, (f a).Ensures ans (fun _ => True) R) : (p >>= f).Ensures ans (fun _ => True) R :=
  ensures_bind.mpr (p.ensures_true.mono fun a _ => h a)

theorem ensures_map {p : Prog Op Res α} {f : α → β} :
    (f <$> p).Ensures ans P R ↔ p.Ensures ans P fun a => R (f a) := by
  rw [map_eq_pure_bind, ensures_bind]
  rfl

theorem Ensures.and {p : Prog Op Res α} (h : p.Ensures ans P Q) (h' : p.Ensures ans P Q') :
    p.Ensures ans P fun a => Q a ∧ Q' a := by
  induction p with
  | done a => exact ⟨h, h'⟩
  | call o next ih => exact ⟨h.1, fun r hr => ih r (h.2 r hr) (h'.2 r hr)⟩

/-- Functions that agree on what a program can end with, agree on its results. -/
theorem Ensures.map_congr {p : Prog Op Res α} {f g : α → β} (h : p.Ensures ans (fun _ => True) Q)
    (hans : ∀ o r, ans o r) (hfg : ∀ a, Q a → f a = g a) : f <$> p = g <$> p := by
  induction p with
  | done a => exact congrArg done (hfg a h)
  | call o next ih => exact congrArg (call o) (funext fun r => ih r (h.2 r (hans o r)))

end Ensures

/-- If every answer satisfies `ans`, then at each operation that the program asks for, `R` holds of
the operation and of what follows it. -/
def Always (ans : (o : Op) → Res o → Prop) (R : (o : Op) → (Res o → Prog Op Res α) → Prop) :
    Prog Op Res α → Prop
  | done _ => True
  | call o next => R o next ∧ ∀ r, ans o r → (next r).Always ans R

/-- The operations asked for in the run from `s` satisfy `A`, each in the state it meets. -/
def Along (handle : (o : Op) → S → Res o × S) (A : Op → S → Prop) : Prog Op Res α → S → Prop
  | done _, _ => True
  | call o next, s => A o s ∧ (next (handle o s).1).Along handle A (handle o s).2

/-- A run whose handler answers as expected, and keeps `I` on the operations that are asked for,
ends as ensured. -/
theorem Ensures.run {ans : (o : Op) → Res o → Prop} {P : Op → Prop} {Q : α → Prop} {I : S → Prop}
    (hstep : ∀ o s, P o → I s → ans o (handle o s).1 ∧ I (handle o s).2) {p : Prog Op Res α}
    (hp : p.Ensures ans P Q) {s : S} (hs : I s) :
    Q (p.run handle s).1 ∧ I (p.run handle s).2 ∧ p.Along handle (fun o _ => P o) s := by
  induction p generalizing s with
  | done a => exact ⟨hp, hs, trivial⟩
  | call o next ih =>
    obtain ⟨hans, hI⟩ := hstep o s hp.1 hs
    obtain ⟨hQ, hend, hrest⟩ := ih _ (hp.2 _ hans) hI
    exact ⟨hQ, hend, hp.1, hrest⟩

/-- **Simulation**: two handlers that, from related states, answer the operations met along the
run alike and keep the states related, give the same result and related final states. -/
theorem run_sim {handle' : (o : Op) → T → Res o × T} {R : S → T → Prop} {A : Op → S → Prop}
    (hstep : ∀ o s t, A o s → R s t →
      (handle o s).1 = (handle' o t).1 ∧ R (handle o s).2 (handle' o t).2)
    {p : Prog Op Res α} {s : S} {t : T} (hp : p.Along handle A s) (h : R s t) :
    (p.run handle s).1 = (p.run handle' t).1 ∧ R (p.run handle s).2 (p.run handle' t).2 := by
  induction p generalizing s t with
  | done a => exact ⟨rfl, h⟩
  | call o next ih =>
    obtain ⟨hans, hrel⟩ := hstep o s t hp.1 h
    rw [run_call, run_call, ← hans]
    exact ih _ hp.2 hrel

/-- What one operation preserves, a run preserves. -/
theorem run_inv {I : S → Prop} {A : Op → S → Prop} (hstep : ∀ o s, A o s → I s → I (handle o s).2)
    {p : Prog Op Res α} {s : S} (hp : p.Along handle A s) (h : I s) : I (p.run handle s).2 := by
  induction p generalizing s with
  | done a => exact h
  | call o next ih => exact ih _ hp.2 (hstep o s hp.1 h)

/-! ## Compiling to another interface -/

variable {Op' : Type} {Res' : Op' → Type}

/-- The program with each operation replaced by a program of another interface; a state of type
`T` goes through all of them. -/
def interp (tr : (o : Op) → T → Prog Op' Res' (Res o × T)) :
    Prog Op Res α → T → Prog Op' Res' (α × T)
  | done a, t => done (a, t)
  | call o next, t => tr o t >>= fun r => (next r.1).interp tr r.2

/-- Running the compiled program is running the program with the compiled operations as handler,
where these leave the state of the new interface alone. -/
theorem run_interp {handle' : (o : Op') → S → Res' o × S}
    {tr : (o : Op) → T → Prog Op' Res' (Res o × T)} {h : (o : Op) → T → Res o × T} {s : S}
    (htr : ∀ o t, (tr o t).run handle' s = (h o t, s)) (p : Prog Op Res α) (t : T) :
    (p.interp tr t).run handle' s = (p.run h t, s) := by
  induction p generalizing t with
  | done a => rfl
  | call o next ih => rw [interp, run_bind, htr, run_call, ih]

/-- The program with each operation replaced by a program of another interface, which may also put
an end to all. -/
def interpUntil (tr : (o : Op) → T → Prog Op' Res' (Option (Res o) × T)) :
    Prog Op Res α → T → Prog Op' Res' (Option α × T)
  | done a, t => done (some a, t)
  | call o next, t => tr o t >>= fun r =>
    r.1.elim (done (none, r.2)) fun a => (next a).interpUntil tr r.2

section InterpUntil

variable {tr : (o : Op) → T → Prog Op' Res' (Option (Res o) × T)}

/-- What a program ends with whatever it is answered, it ends with if programs answer it, unless
one of them has put an end to it. -/
theorem Ensures.interpUntil {ans : (o : Op') → Res' o → Prop} {Q : α → Prop} {p : Prog Op Res α}
    (h : p.Ensures (fun _ _ => True) (fun _ => True) Q) (t : T) :
    (p.interpUntil tr t).Ensures ans (fun _ => True) fun r => ∀ a, r.1 = some a → Q a := by
  induction p generalizing t with
  | done a =>
    intro a' ha
    cases ha
    exact h
  | call o next ih =>
    refine ensures_bind_of fun r => ?_
    obtain ⟨_ | a, t'⟩ := r
    · intro a' ha
      cases ha
    · exact ih a (h.2 a trivial) t'

end InterpUntil

/-! ## What a program can end with -/

/-- With some answers, the program ends with this. -/
inductive MayEnd : Prog Op Res α → α → Prop
  | done (a : α) : MayEnd (done a) a
  | call {o : Op} {next : Res o → Prog Op Res α} {r : Res o} {a : α} (h : MayEnd (next r) a) :
      MayEnd (call o next) a

theorem ensures_mayEnd {ans : (o : Op) → Res o → Prop} (p : Prog Op Res α) :
    p.Ensures ans (fun _ => True) p.MayEnd := by
  induction p with
  | done a => exact .done a
  | call o next ih => exact ⟨trivial, fun r _ => (ih r).mono fun a h => .call h⟩

/-! ## Two programs up to where they part -/

/-- The programs ask for the same, whatever they are answered, until what is left of them is related
by `R`. -/
inductive Parts (R : Prog Op Res α → Prog Op Res β → Prop) : Prog Op Res α → Prog Op Res β → Prop
  | now {p : Prog Op Res α} {q : Prog Op Res β} (h : R p q) : Parts R p q
  | call {o : Op} {next : Res o → Prog Op Res α} {next' : Res o → Prog Op Res β}
      (h : ∀ r, Parts R (next r) (next' r)) : Parts R (call o next) (call o next')

namespace Parts

variable {γ δ : Type} {R : Prog Op Res α → Prog Op Res β → Prop}

theorem bind_same {f : γ → Prog Op Res α} {g : γ → Prog Op Res β} (p : Prog Op Res γ)
    (h : ∀ c, Parts R (f c) (g c)) : Parts R (p >>= f) (p >>= g) := by
  induction p with
  | done c => exact h c
  | call o next ih => exact .call ih

theorem map {S : Prog Op Res γ → Prog Op Res δ → Prop} {p : Prog Op Res α} {q : Prog Op Res β}
    {f : α → γ} {g : β → δ} (h : Parts R p q) (hf : ∀ p q, R p q → S (f <$> p) (g <$> q)) :
    Parts S (f <$> p) (g <$> q) := by
  induction h with
  | now h => exact .now (hf _ _ h)
  | call h ih => exact .call ih

end Parts

end Prog
