import Choam.Lib.Interleave

/-!
# Calls made one after another

`alone` is what happens while one client has the shared state to itself: each of its calls starts
from the state that the one before it left. What every call keeps holds before each of them
(`alone_invariant`).
-/

namespace Interleave

open Object

variable {O : Object}

/-- A call made alone: the caller's state and the shared state, before it and after it. -/
structure Object.Solo (O : Object) where
  call : O.Call
  start : O.Local
  before : O.Shared
  reply : O.Reply
  finish : O.Local
  after : O.Shared

/-- The call `c`, made alone. -/
def made (c : O.Call) (l : O.Local) (s : O.Shared) : O.Solo :=
  let r := (O.body c l).run O.perform s
  ⟨c, l, s, r.1.1, r.1.2, r.2⟩

/-- Several calls, made alone one after another. -/
def alone : O.Local → O.Shared → List O.Call → List O.Solo
  | _, _, [] => []
  | l, s, c :: cs => made c l s :: alone (made c l s).finish (made c l s).after cs

/-- Where they lead. -/
def aloneEnd (l : O.Local) (s : O.Shared) (cs : List O.Call) : O.Local × O.Shared :=
  cs.foldl (fun r c => ((made c r.1 r.2).finish, (made c r.1 r.2).after)) (l, s)

@[simp] theorem aloneEnd_nil (l : O.Local) (s : O.Shared) : aloneEnd l s [] = (l, s) := rfl

@[simp] theorem aloneEnd_cons (l : O.Local) (s : O.Shared) (c : O.Call) (cs : List O.Call) :
    aloneEnd l s (c :: cs) = aloneEnd (made c l s).finish (made c l s).after cs := rfl

@[simp] theorem aloneEnd_append (l : O.Local) (s : O.Shared) (cs cs' : List O.Call) :
    aloneEnd l s (cs ++ cs') = aloneEnd (aloneEnd l s cs).1 (aloneEnd l s cs).2 cs' := by
  simp [aloneEnd]

/-- A program that keeps to its protocol among all others does so alone. -/
theorem Safe.run {R : O.Shared → O.Shared → Prop} {A : O.Access → Prop}
    {Q : O.Reply × O.Local → O.Shared → Prop} (hrefl : ∀ s, R s s)
    {p : Prog O.Op O.Res (O.Reply × O.Local)} {s : O.Shared} (h : Safe R A Q p s) :
    Q (p.run O.perform s).1 (p.run O.perform s).2 := by
  induction p generalizing s with
  | done a => exact h s (hrefl s)
  | call o next ih => exact ih _ (h s (hrefl s)).2.2

/-- What every call keeps, along with the calls before it, holds before each of them. -/
theorem alone_invariant {I : List O.Solo → O.Local → O.Shared → Prop} {cs : List O.Call}
    {l : O.Local} {s : O.Shared} (hstart : I [] l s)
    (hstep : ∀ past l s, ∀ c ∈ cs, I past l s →
      I (past ++ [made c l s]) (made c l s).finish (made c l s).after)
    {past rest : List O.Solo} {x : O.Solo} (h : alone l s cs = past ++ x :: rest) :
    I past x.start x.before ∧ x.call ∈ cs ∧ x = made x.call x.start x.before := by
  have hall : ∀ acc, I acc l s → I (acc ++ past) x.start x.before ∧ x.call ∈ cs ∧
      x = made x.call x.start x.before := by
    clear hstart
    intro acc hacc
    induction cs generalizing l s acc past with
    | nil => simp [alone] at h
    | cons c cs ih =>
      cases past with
      | nil =>
        obtain ⟨rfl, -⟩ := List.cons.inj h
        exact ⟨by simpa [made] using hacc, by simp [made], rfl⟩
      | cons y past =>
        obtain ⟨rfl, htail⟩ := List.cons.inj h
        obtain ⟨hI, hmem, hx⟩ := ih (fun past l s c' hc' => hstep past l s c' (by simp [hc'])) htail
          _ (hstep acc l s c (by simp) hacc)
        exact ⟨by simpa using hI, by simp [hmem], hx⟩
  exact hall [] hstart

end Interleave
