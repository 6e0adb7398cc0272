import Mathlib.Logic.Relation
import Mathlib.Logic.Function.Basic
import Choam.Lib.Prog

/-!
# Interleaved calls on a shared object

An `Object` is a shared state together with the calls that clients make on it. A call runs a
program whose operations are the atomic steps on the shared state; between two operations of one
client any other client may step. `Step` is one such step, `Reachable` any number of them. A
configuration remembers what has happened: `Client.past` holds a client's finished calls, with
every access each of them made and the shared state it met, and `Config.log` holds the accesses of
all clients in the order they were made. No program reads either.

The proof rule is rely-guarantee (`Protocol.reachable`): if every call, started from a local state
that satisfies the client invariant and interfered with only as `rely` allows, itself changes the
shared state only as `rely` allows, makes only accesses that satisfy `Protocol.access`, and ends in
a local state that satisfies the invariant again, then all of this holds in every interleaving of
any number of clients. `Safe` is the judgement about one program, with the usual rules.
-/

namespace Interleave

/-- A shared state, its atomic operations, and the calls made on it. `Local` is what a client
holds between two calls. -/
structure Object where
  Shared : Type
  Op : Type
  Res : Op → Type
  perform : (o : Op) → Shared → Res o × Shared
  Call : Type
  Reply : Type
  Local : Type
  enabled : Call → Local → Prop
  body : Call → Local → Prog Op Res (Reply × Local)

variable (O : Object) (ι : Type)

namespace Object

/-- One atomic operation, the shared state it met and its answer. -/
structure Access where
  before : O.Shared
  op : O.Op
  res : O.Res op

/-- A finished call: the caller's state before and after, and the accesses made in between. -/
structure Done where
  call : O.Call
  start : O.Local
  seen : List O.Access
  reply : O.Reply
  finish : O.Local

/-- What a client is doing: nothing, or the rest of a call. -/
inductive Thread where
  | idle (l : O.Local)
  | busy (c : O.Call) (start : O.Local) (seen : List O.Access)
      (rest : Prog O.Op O.Res (O.Reply × O.Local))

/-- A client: its finished calls, oldest first, and what it is doing. -/
structure Client where
  past : List O.Done
  thread : O.Thread

/-- An access in the order of all accesses: who made it, in which call, after which calls. -/
structure Entry where
  who : ι
  past : List O.Done
  call : O.Call
  start : O.Local
  seen : List O.Access
  access : O.Access

/-- The shared state, every client, and the accesses made so far, oldest first. -/
structure Config where
  shared : O.Shared
  client : ι → O.Client
  log : List (O.Entry ι)

end Object

open Object

variable {O ι} [DecidableEq ι]

/-- One step of one client: it makes a call that `allow` permits, its call makes one access, or
its call returns. -/
inductive Step (allow : O.Call → O.Local → Prop) : O.Config ι → O.Config ι → Prop
  | call {g : O.Config ι} (i : ι) {past : List O.Done} {l : O.Local} (c : O.Call)
      (hi : g.client i = ⟨past, .idle l⟩) (hen : O.enabled c l) (hal : allow c l) :
      Step allow g
        { g with client := Function.update g.client i ⟨past, .busy c l [] (O.body c l)⟩ }
  | access {g : O.Config ι} (i : ι) {past : List O.Done} {c : O.Call} {l : O.Local}
      {seen : List O.Access} {o : O.Op} {next : O.Res o → Prog O.Op O.Res (O.Reply × O.Local)}
      (hi : g.client i = ⟨past, .busy c l seen (.call o next)⟩) :
      Step allow g
        { shared := (O.perform o g.shared).2
          client := Function.update g.client i
            ⟨past, .busy c l (seen ++ [⟨g.shared, o, (O.perform o g.shared).1⟩])
              (next (O.perform o g.shared).1)⟩
          log := g.log ++ [⟨i, past, c, l, seen, ⟨g.shared, o, (O.perform o g.shared).1⟩⟩] }
  | reply {g : O.Config ι} (i : ι) {past : List O.Done} {c : O.Call} {l l' : O.Local}
      {seen : List O.Access} {r : O.Reply}
      (hi : g.client i = ⟨past, .busy c l seen (.done (r, l'))⟩) :
      Step allow g
        { g with client := Function.update g.client i ⟨past ++ [⟨c, l, seen, r, l'⟩], .idle l'⟩ }

/-- Configurations that some interleaving reaches from `g₀`. -/
def Reachable (allow : O.Call → O.Local → Prop) (g₀ g : O.Config ι) : Prop :=
  Relation.ReflTransGen (Step allow) g₀ g

/-- Nobody has done anything yet; the shared state is `s` and client `i` holds `l i`. -/
def start (s : O.Shared) (l : ι → O.Local) : O.Config ι :=
  ⟨s, fun i => ⟨[], .idle (l i)⟩, []⟩

/-! ## Calls made while nobody else steps -/

/-- The configuration after client `i` has finished its call alone. -/
def finish (i : ι) (past : List O.Done) (c : O.Call) (l : O.Local) :
    Prog O.Op O.Res (O.Reply × O.Local) → List O.Access → O.Config ι → O.Config ι
  | .done (r, l'), seen, g =>
    { g with client := Function.update g.client i ⟨past ++ [⟨c, l, seen, r, l'⟩], .idle l'⟩ }
  | .call o next, seen, g =>
    finish i past c l (next (O.perform o g.shared).1)
      (seen ++ [⟨g.shared, o, (O.perform o g.shared).1⟩])
      { shared := (O.perform o g.shared).2
        client := Function.update g.client i
          ⟨past, .busy c l (seen ++ [⟨g.shared, o, (O.perform o g.shared).1⟩])
            (next (O.perform o g.shared).1)⟩
        log := g.log ++ [⟨i, past, c, l, seen, ⟨g.shared, o, (O.perform o g.shared).1⟩⟩] }

/-- Client `i` makes the call `c` alone, if it can. -/
def solo [∀ c l, Decidable (O.enabled c l)] (g : O.Config ι) (i : ι) (c : O.Call) : O.Config ι :=
  match g.client i with
  | ⟨past, .idle l⟩ =>
    if O.enabled c l then
      finish i past c l (O.body c l) []
        { g with client := Function.update g.client i ⟨past, .busy c l [] (O.body c l)⟩ }
    else g
  | _ => g

theorem reachable_finish {allow : O.Call → O.Local → Prop} {i : ι} {past : List O.Done} {c : O.Call}
    {l : O.Local} (p : Prog O.Op O.Res (O.Reply × O.Local)) {seen : List O.Access}
    {g : O.Config ι} (hi : g.client i = ⟨past, .busy c l seen p⟩) :
    Reachable allow g (finish i past c l p seen g) := by
  induction p generalizing seen g with
  | done a => exact .single (.reply i hi)
  | call o next ih =>
    exact .head (.access i hi) (ih _ (Function.update_self ..))

theorem reachable_solo [∀ c l, Decidable (O.enabled c l)] {allow : O.Call → O.Local → Prop}
    (g : O.Config ι) (i : ι) {c : O.Call} (hal : ∀ l, allow c l) :
    Reachable allow g (solo g i c) := by
  unfold solo
  split
  next past l hi =>
    split
    next hen => exact .head (.call i c hi hen (hal l)) (reachable_finish _ (Function.update_self ..))
    next => exact .refl
  next => exact .refl

/-- Several calls, each made alone. -/
def solos [∀ c l, Decidable (O.enabled c l)] (g : O.Config ι) (calls : List (ι × O.Call)) :
    O.Config ι := calls.foldl (fun g c => solo g c.1 c.2) g

theorem reachable_solos [∀ c l, Decidable (O.enabled c l)] {allow : O.Call → O.Local → Prop}
    (g : O.Config ι) {calls : List (ι × O.Call)} (hal : ∀ c ∈ calls, ∀ l, allow c.2 l) :
    Reachable allow g (solos g calls) := by
  induction calls generalizing g with
  | nil => exact .refl
  | cons c calls ih =>
    exact (reachable_solo g c.1 (hal c (by simp))).trans
      (ih _ fun c' hc' => hal c' (by simp [hc']))

/-! ## Steps in a given order -/

/-- One step of client `i`: at rest, it makes the call `c`, if it can; else it goes on with the one
that it has made. -/
def move [∀ c l, Decidable (O.enabled c l)] (g : O.Config ι) (i : ι) (c : O.Call) : O.Config ι :=
  match g.client i with
  | ⟨past, .idle l⟩ =>
    if O.enabled c l then
      { g with client := Function.update g.client i ⟨past, .busy c l [] (O.body c l)⟩ }
    else g
  | ⟨past, .busy c l seen (.call o next)⟩ =>
    { shared := (O.perform o g.shared).2
      client := Function.update g.client i
        ⟨past, .busy c l (seen ++ [⟨g.shared, o, (O.perform o g.shared).1⟩])
          (next (O.perform o g.shared).1)⟩
      log := g.log ++ [⟨i, past, c, l, seen, ⟨g.shared, o, (O.perform o g.shared).1⟩⟩] }
  | ⟨past, .busy c l seen (.done (r, l'))⟩ =>
    { g with client := Function.update g.client i ⟨past ++ [⟨c, l, seen, r, l'⟩], .idle l'⟩ }

theorem reachable_move [∀ c l, Decidable (O.enabled c l)] {allow : O.Call → O.Local → Prop}
    (g : O.Config ι) (i : ι) {c : O.Call} (hal : ∀ l, allow c l) :
    Reachable allow g (move g i c) := by
  unfold move
  split
  next past l hi =>
    split
    next hen => exact .single (.call i c hi hen (hal l))
    next => exact .refl
  next hi => exact .single (.access i hi)
  next hi => exact .single (.reply i hi)

/-- Several steps. -/
def moves [∀ c l, Decidable (O.enabled c l)] (g : O.Config ι) (calls : List (ι × O.Call)) :
    O.Config ι := calls.foldl (fun g c => move g c.1 c.2) g

theorem Reachable.moves [∀ c l, Decidable (O.enabled c l)] {allow : O.Call → O.Local → Prop}
    {g₀ g : O.Config ι} (h : Reachable allow g₀ g) {calls : List (ι × O.Call)}
    (hal : ∀ c ∈ calls, ∀ l, allow c.2 l) : Reachable allow g₀ (moves g calls) := by
  induction calls generalizing g with
  | nil => exact h
  | cons c calls ih =>
    exact ih (h.trans (reachable_move g c.1 (hal c (by simp)))) fun c' hc' => hal c' (by simp [hc'])

theorem Reachable.solos [∀ c l, Decidable (O.enabled c l)] {allow : O.Call → O.Local → Prop}
    {g₀ g : O.Config ι} (h : Reachable allow g₀ g) {calls : List (ι × O.Call)}
    (hal : ∀ c ∈ calls, ∀ l, allow c.2 l) : Reachable allow g₀ (solos g calls) :=
  h.trans (reachable_solos g hal)

/-! ## What a program has done so far -/

section Leads

variable {α β : Type}

/-- The program `p` goes on as `q` after making the accesses `seen`, each answered as the object
does. -/
inductive Leads : Prog O.Op O.Res α → List O.Access → Prog O.Op O.Res α → Prop
  | nil {p : Prog O.Op O.Res α} : Leads p [] p
  | cons {a : O.Access} {next : O.Res a.op → Prog O.Op O.Res α} {seen : List O.Access}
      {q : Prog O.Op O.Res α} (hres : a.res = (O.perform a.op a.before).1)
      (h : Leads (next a.res) seen q) : Leads (.call a.op next) (a :: seen) q

namespace Leads

variable {p q : Prog O.Op O.Res α} {seen : List O.Access}

omit [DecidableEq ι]

theorem concat {o : O.Op} {next : O.Res o → Prog O.Op O.Res α}
    (h : Leads p seen (.call o next)) (s : O.Shared) :
    Leads p (seen ++ [⟨s, o, (O.perform o s).1⟩]) (next (O.perform o s).1) := by
  generalize hq : Prog.call o next = q at h
  induction h with
  | nil =>
    subst hq
    exact .cons (a := ⟨s, o, (O.perform o s).1⟩) rfl .nil
  | cons hres h ih => exact .cons hres (ih hq)

theorem of_nil (h : Leads p [] q) : p = q := by
  cases h
  rfl

theorem of_done {a : α} (h : Leads (.done a) seen q) : seen = [] ∧ q = .done a := by
  cases h
  exact ⟨rfl, rfl⟩

/-- A program that starts with an operation has made it, or has done nothing yet. -/
theorem of_call {o : O.Op} {next : O.Res o → Prog O.Op O.Res α} (h : Leads (.call o next) seen q) :
    seen = [] ∧ q = .call o next ∨ ∃ s rest, seen = ⟨s, o, (O.perform o s).1⟩ :: rest ∧
      Leads (next (O.perform o s).1) rest q := by
  generalize hp : Prog.call o next = p at h
  cases h with
  | nil => exact .inl ⟨rfl, rfl⟩
  | @cons a next' seen' _ hres h =>
    obtain ⟨s, o', r⟩ := a
    cases hp
    dsimp only at hres
    subst hres
    exact .inr ⟨s, seen', rfl, h⟩

theorem of_call_done {o : O.Op} {next : O.Res o → Prog O.Op O.Res α} {b : α}
    (h : Leads (.call o next) seen (.done b)) : ∃ s rest,
      seen = ⟨s, o, (O.perform o s).1⟩ :: rest ∧ Leads (next (O.perform o s).1) rest (.done b) := by
  rcases h.of_call with ⟨-, hq⟩ | h
  · cases hq
  · exact h

/-- A sequence is still in its first part, or the first part has ended. -/
theorem of_bind {p : Prog O.Op O.Res α} {f : α → Prog O.Op O.Res β} {q : Prog O.Op O.Res β}
    (h : Leads (p >>= f) seen q) :
    (∃ p', Leads p seen p' ∧ q = p' >>= f) ∨ ∃ seen₁ seen₂ a, seen = seen₁ ++ seen₂ ∧
      Leads p seen₁ (.done a) ∧ Leads (f a) seen₂ q := by
  induction p generalizing seen with
  | done a => exact .inr ⟨[], seen, a, rfl, .nil, h⟩
  | call o next ih =>
    rcases of_call h with ⟨rfl, rfl⟩ | ⟨s, rest, rfl, hrest⟩
    · exact .inl ⟨.call o next, .nil, rfl⟩
    rcases ih _ hrest with ⟨p', hp, rfl⟩ | ⟨seen₁, seen₂, a, rfl, h₁, h₂⟩
    · exact .inl ⟨p', .cons (a := ⟨s, o, (O.perform o s).1⟩) rfl hp, rfl⟩
    · exact .inr ⟨_ :: seen₁, seen₂, a, rfl, .cons (a := ⟨s, o, (O.perform o s).1⟩) rfl h₁, h₂⟩

theorem of_bind_done {p : Prog O.Op O.Res α} {f : α → Prog O.Op O.Res β} {b : β}
    (h : Leads (p >>= f) seen (.done b)) : ∃ seen₁ seen₂ a, seen = seen₁ ++ seen₂ ∧
      Leads p seen₁ (.done a) ∧ Leads (f a) seen₂ (.done b) := by
  rcases h.of_bind with ⟨p', hp, hq⟩ | h
  · cases p' with
    | done a => exact ⟨seen, [], a, by simp, hp, hq ▸ .nil⟩
    | call o next => cases hq
  · exact h

/-- A sequence that is about to make an access is so in its first part or in its second. -/
theorem of_bind_call {p : Prog O.Op O.Res α} {f : α → Prog O.Op O.Res β} {o : O.Op}
    {next : O.Res o → Prog O.Op O.Res β} (h : Leads (p >>= f) seen (.call o next)) :
    (∃ next', Leads p seen (.call o next') ∧ next = fun r => next' r >>= f) ∨
      ∃ seen₁ seen₂ a, seen = seen₁ ++ seen₂ ∧ Leads p seen₁ (.done a) ∧
        Leads (f a) seen₂ (.call o next) := by
  rcases h.of_bind with ⟨p', hp, hq⟩ | h
  · cases p' with
    | done a => exact .inr ⟨seen, [], a, by simp, hp, hq ▸ .nil⟩
    | call o' next' =>
      cases hq
      exact .inl ⟨next', hp, rfl⟩
  · exact .inr h

/-- What a program does, whatever it is answered, the rest of it does. -/
theorem ensured {ans : (o : O.Op) → O.Res o → Prop} {A : O.Op → Prop} {Q : α → Prop}
    (hans : ∀ o s, ans o (O.perform o s).1) (h : Leads p seen q) (hp : p.Ensures ans A Q) :
    q.Ensures ans A Q := by
  induction h with
  | nil => exact hp
  | cons hres h ih =>
    refine ih (hp.2 _ ?_)
    rw [hres]
    exact hans _ _

/-- What a program ends with, whatever it is answered, it ends with here. -/
theorem ensures {A : O.Op → Prop} {Q : α → Prop} {a : α} (h : Leads p seen (.done a))
    (hp : p.Ensures (fun _ _ => True) A Q) : Q a := h.ensured (fun _ _ => trivial) hp

theorem always {ans : (o : O.Op) → O.Res o → Prop}
    {R : (o : O.Op) → (O.Res o → Prog O.Op O.Res α) → Prop}
    (hans : ∀ o s, ans o (O.perform o s).1) (h : Leads p seen q) (hp : p.Always ans R) :
    q.Always ans R := by
  induction h with
  | nil => exact hp
  | cons hres h ih =>
    refine ih (hp.2 _ ?_)
    rw [hres]
    exact hans _ _

/-- Before each of its accesses, a program was about to make it. -/
theorem split {a : O.Access} {seen' : List O.Access} (h : Leads p (seen ++ a :: seen') q) :
    ∃ next, Leads p seen (.call a.op next) ∧ Leads (next a.res) seen' q := by
  induction seen generalizing p with
  | nil =>
    cases h with
    | cons hres h => exact ⟨_, .nil, h⟩
  | cons b seen ih =>
    cases h with
    | cons hres h =>
      obtain ⟨next, h₁, h₂⟩ := ih h
      exact ⟨next, .cons hres h₁, h₂⟩

/-- Every access was answered as the object does. -/
theorem res_eq (h : Leads p seen q) : ∀ a ∈ seen, a.res = (O.perform a.op a.before).1 := by
  induction h with
  | nil => simp
  | cons hres h ih => simpa [hres] using ih

end Leads

/-- The shared states that the accesses met follow each other by `R`, from `s` to `s'`. -/
def Ordered (R : O.Shared → O.Shared → Prop) : O.Shared → List O.Access → O.Shared → Prop
  | s, [], s' => R s s'
  | s, a :: seen, s' => R s a.before ∧ Ordered R a.before seen s'

section Ordered

variable {R : O.Shared → O.Shared → Prop}

omit [DecidableEq ι]

@[simp] theorem ordered_nil {s s' : O.Shared} : Ordered R s [] s' ↔ R s s' := Iff.rfl

@[simp] theorem ordered_cons {s s' : O.Shared} {a : O.Access} {seen : List O.Access} :
    Ordered R s (a :: seen) s' ↔ R s a.before ∧ Ordered R a.before seen s' := Iff.rfl

theorem Ordered.rel (htrans : ∀ {a b c}, R a b → R b c → R a c) {s s' : O.Shared}
    {seen : List O.Access} (h : Ordered R s seen s') : R s s' := by
  induction seen generalizing s with
  | nil => exact h
  | cons a seen ih => exact htrans h.1 (ih (ordered_cons.mp h).2)

theorem Ordered.before (htrans : ∀ {a b c}, R a b → R b c → R a c) {s s' : O.Shared}
    {seen : List O.Access} (h : Ordered R s seen s') {a : O.Access} (ha : a ∈ seen) :
    R s a.before ∧ R a.before s' := by
  induction seen generalizing s with
  | nil => cases ha
  | cons b seen ih =>
    obtain ⟨hb, hrest⟩ := ordered_cons.mp h
    rcases List.mem_cons.mp ha with rfl | ha
    · exact ⟨hb, Ordered.rel (R := R) htrans hrest⟩
    · obtain ⟨h₁, h₂⟩ := ih hrest ha
      exact ⟨htrans hb h₁, h₂⟩

theorem Ordered.pairwise (htrans : ∀ {a b c}, R a b → R b c → R a c) {s s' : O.Shared}
    {seen : List O.Access} (h : Ordered R s seen s') :
    seen.Pairwise fun a a' => R a.before a'.before := by
  induction seen generalizing s with
  | nil => exact .nil
  | cons a seen ih =>
    obtain ⟨-, hrest⟩ := ordered_cons.mp h
    exact List.pairwise_cons.mpr ⟨fun a' ha' => (Ordered.before (R := R) htrans hrest ha').1,
      ih hrest⟩

end Ordered

end Leads

/-! ## The log -/

/-- The shared state that the accesses of a log make of `s`. -/
def replayLog (s : O.Shared) (log : List (O.Entry ι)) : O.Shared :=
  log.foldl (fun s e => (O.perform e.access.op s).2) s

omit [DecidableEq ι] in
@[simp] theorem replayLog_concat (s : O.Shared) (log : List (O.Entry ι)) (e : O.Entry ι) :
    replayLog s (log ++ [e]) = (O.perform e.access.op (replayLog s log)).2 := by
  simp [replayLog]

/-- The accesses that client `i` made. -/
def accessesOf (log : List (O.Entry ι)) (i : ι) : List O.Access :=
  (log.filter (·.who = i)).map (·.access)

@[simp] theorem accessesOf_concat (log : List (O.Entry ι)) (e : O.Entry ι) (i : ι) :
    accessesOf (log ++ [e]) i = accessesOf log i ++ if e.who = i then [e.access] else [] := by
  by_cases h : e.who = i <;> simp [accessesOf, h]

/-- Calls that follow each other from the local state `l` to `l'`. -/
def Linked : O.Local → List O.Done → O.Local → Prop
  | l, [], l' => l' = l
  | l, d :: ds, l' => d.start = l ∧ Linked d.finish ds l'

omit [DecidableEq ι] in
theorem Linked.concat {l l' : O.Local} {ds : List O.Done} (h : Linked l ds l') (d : O.Done)
    (hd : d.start = l') : Linked l (ds ++ [d]) d.finish := by
  induction ds generalizing l with
  | nil => exact ⟨hd.trans h, rfl⟩
  | cons d' ds ih => exact ⟨h.1, ih h.2⟩

theorem Linked.split {l l' : O.Local} {ds ds' : List O.Done} (h : Linked l (ds ++ ds') l') :
    ∃ m, Linked l ds m ∧ Linked m ds' l' := by
  induction ds generalizing l with
  | nil => exact ⟨l, rfl, h⟩
  | cons d ds ih =>
    obtain ⟨m, h₁, h₂⟩ := ih h.2
    exact ⟨m, ⟨h.1, h₁⟩, h₂⟩

/-- What every call keeps, any number of them keep. -/
theorem Linked.invariant {I : O.Local → Prop} {l l' : O.Local} {ds : List O.Done}
    (h : Linked l ds l') (hstep : ∀ d ∈ ds, I d.start → I d.finish) (hl : I l) : I l' := by
  induction ds generalizing l with
  | nil => exact h ▸ hl
  | cons d ds ih =>
    exact ih h.2 (fun d' hd' => hstep d' (by simp [hd'])) (hstep d (by simp) (h.1 ▸ hl))

/-- The accesses of finished calls. -/
def accesses (past : List O.Done) : List O.Access := past.flatMap (·.seen)

@[simp] theorem accesses_nil : accesses ([] : List O.Done) = [] := rfl

@[simp] theorem accesses_cons (d : O.Done) (past : List O.Done) :
    accesses (d :: past) = d.seen ++ accesses past := rfl

@[simp] theorem accesses_append (past past' : List O.Done) :
    accesses (past ++ past') = accesses past ++ accesses past' := by
  simp [accesses]

/-- The accesses of one client up to one of its own. -/
theorem accessesOf_upTo (earlier later : List (O.Entry ι)) (e : O.Entry ι) :
    (accessesOf earlier e.who ++ [e.access]).Sublist
      (accessesOf (earlier ++ e :: later) e.who) := by
  have hcons : accessesOf (e :: later) e.who = e.access :: accessesOf later e.who := by
    simp [accessesOf]
  have happ : accessesOf (earlier ++ e :: later) e.who =
      accessesOf earlier e.who ++ accessesOf (e :: later) e.who := by
    simp [accessesOf]
  rw [happ, hcons]
  exact (List.Sublist.refl _).append (List.singleton_sublist.mpr (by simp))

/-- Each access of one client was made somewhere in the log. -/
theorem exists_entry_of_accessesOf {log : List (O.Entry ι)} {i : ι} {as as' : List O.Access}
    {a : O.Access} (h : accessesOf log i = as ++ a :: as') : ∃ before e since,
      log = before ++ e :: since ∧ e.who = i ∧ e.access = a ∧ accessesOf before i = as ∧
        accessesOf since i = as' := by
  obtain ⟨es, es', hfilter, has, hes'⟩ := List.map_eq_append_iff.mp h
  obtain ⟨e, es', rfl, ha, has'⟩ := List.map_eq_cons_iff.mp hes'
  obtain ⟨before, rest, rfl, hbefore, hrest⟩ := List.filter_eq_append_iff.mp hfilter
  obtain ⟨others, since, rfl, hothers, hwho, hsince⟩ := List.filter_eq_cons_iff.mp hrest
  refine ⟨before ++ others, e, since, by simp, of_decide_eq_true hwho, ha, ?_, ?_⟩
  · rw [accessesOf, List.filter_append, hbefore, List.filter_eq_nil_iff.mpr hothers,
      List.append_nil, has]
  · rw [accessesOf, hsince, has']

/-- What a finished call did: it was allowed, and its program made these accesses and gave this
reply. -/
structure Returned (allow : O.Call → O.Local → Prop) (d : O.Done) : Prop where
  enabled : O.enabled d.call d.start
  allowed : allow d.call d.start
  leads : Leads (O.body d.call d.start) d.seen (.done (d.reply, d.finish))

/-- How a log entry fits the accesses before it. -/
structure EntryOk (allow : O.Call → O.Local → Prop) (s₀ : O.Shared) (l₀ : ι → O.Local)
    (earlier : List (O.Entry ι)) (e : O.Entry ι) : Prop where
  before : e.access.before = replayLog s₀ earlier
  res : e.access.res = (O.perform e.access.op e.access.before).1
  own : accessesOf earlier e.who = accesses e.past ++ e.seen
  linked : Linked (l₀ e.who) e.past e.start
  past : ∀ d ∈ e.past, Returned allow d
  enabled : O.enabled e.call e.start
  allowed : allow e.call e.start
  leads : ∃ next, Leads (O.body e.call e.start) e.seen (.call e.access.op next)

/-- How a client's memory fits the log. -/
structure ThreadOk (allow : O.Call → O.Local → Prop) (l₀ : O.Local) (own : List O.Access)
    (k : O.Client) : Prop where
  past : ∀ d ∈ k.past, Returned allow d
  idle : ∀ l, k.thread = .idle l → own = accesses k.past ∧ Linked l₀ k.past l
  busy : ∀ c l seen rest, k.thread = .busy c l seen rest → own = accesses k.past ++ seen ∧
    Linked l₀ k.past l ∧ O.enabled c l ∧ allow c l ∧ Leads (O.body c l) seen rest

/-- **The log is the whole truth**: the accesses in it, made one after another, lead to the shared
state, each met the state that those before it lead to, and every client remembers its own. -/
structure Logged (allow : O.Call → O.Local → Prop) (s₀ : O.Shared) (l₀ : ι → O.Local)
    (g : O.Config ι) : Prop where
  shared : g.shared = replayLog s₀ g.log
  entry : ∀ earlier e later, g.log = earlier ++ e :: later → EntryOk allow s₀ l₀ earlier e
  thread : ∀ i, ThreadOk allow (l₀ i) (accessesOf g.log i) (g.client i)

theorem Logged.step {allow : O.Call → O.Local → Prop} {s₀ : O.Shared} {l₀ : ι → O.Local}
    {g g' : O.Config ι} (h : Logged allow s₀ l₀ g) (hs : Step allow g g') :
    Logged allow s₀ l₀ g' := by
  cases hs with
  | @call i past l c hi hen hal =>
    refine ⟨h.shared, h.entry, fun j => ?_⟩
    have hj := h.thread j
    by_cases hij : j = i
    · subst hij
      rw [hi] at hj
      obtain ⟨hown, hlinked⟩ := hj.idle l rfl
      simp only [Function.update_self]
      refine ⟨hj.past, nofun, fun c' l' seen rest hb => ?_⟩
      cases hb
      exact ⟨by simpa using hown, hlinked, hen, hal, .nil⟩
    · simpa [hij] using hj
  | @access i past c l seen o next hi =>
    have hthread := h.thread i
    rw [hi] at hthread
    obtain ⟨hacc, hlinked, hen, hal, hleads⟩ := hthread.busy _ _ _ _ rfl
    refine ⟨?_, fun earlier e later heq => ?_, fun j => ?_⟩
    · rw [replayLog_concat, ← h.shared]
    · rcases List.eq_nil_or_concat later with rfl | ⟨later, e', rfl⟩
      · obtain ⟨rfl, he⟩ := List.append_inj' heq rfl
        cases he
        exact ⟨h.shared, rfl, hacc, hlinked, hthread.past, hen, hal, next, hleads⟩
      · rw [List.concat_eq_append, ← List.cons_append, ← List.append_assoc] at heq
        exact h.entry earlier e later (List.append_inj' heq rfl).1
    · by_cases hij : j = i
      · subst hij
        simp only [Function.update_self, accessesOf_concat, if_true]
        refine ⟨hthread.past, nofun, fun c' l' seen' rest hb => ?_⟩
        cases hb
        exact ⟨by simp [hacc], hlinked, hen, hal, hleads.concat _⟩
      · have hj := h.thread j
        have hne : i ≠ j := fun h => hij h.symm
        simpa [hij, hne] using hj
  | @reply i past c l l' seen r hi =>
    refine ⟨h.shared, h.entry, fun j => ?_⟩
    have hj := h.thread j
    by_cases hij : j = i
    · subst hij
      rw [hi] at hj
      obtain ⟨hown, hlinked, hen, hal, hleads⟩ := hj.busy _ _ _ _ rfl
      simp only [Function.update_self]
      refine ⟨fun d hd => ?_, fun l'' hl => ?_, nofun⟩
      · rcases List.mem_append.mp hd with hd | hd
        · exact hj.past d hd
        · rw [List.mem_singleton] at hd
          subst hd
          exact ⟨hen, hal, hleads⟩
      · cases hl
        exact ⟨by simp [hown], hlinked.concat ⟨c, l, seen, r, l'⟩ rfl⟩
    · simpa [hij] using hj

/-- Every interleaving keeps its log. -/
theorem Reachable.logged {allow : O.Call → O.Local → Prop} {s₀ : O.Shared} {l₀ : ι → O.Local}
    {g : O.Config ι} (h : Reachable allow (start s₀ l₀) g) : Logged allow s₀ l₀ g := by
  induction h with
  | refl =>
    refine ⟨rfl, by simp [start], fun i => ⟨by simp [start], fun l hl => ?_, nofun⟩⟩
    cases hl
    exact ⟨rfl, rfl⟩
  | tail _ hs ih => exact ih.step hs

/-- Each of the accesses `seen` that client `i` made in the call `c` has its entry in the log. -/
def Recorded (log : List (O.Entry ι)) (i : ι) (c : O.Call) (l : O.Local) (seen : List O.Access) :
    Prop :=
  ∀ before a after, seen = before ++ a :: after →
    ∃ e ∈ log, e.who = i ∧ e.call = c ∧ e.start = l ∧ e.seen = before ∧ e.access = a

omit [DecidableEq ι] in
theorem Recorded.concat {log : List (O.Entry ι)} {i : ι} {c : O.Call} {l : O.Local}
    {seen : List O.Access} (h : Recorded log i c l seen) (past : List O.Done) (a : O.Access) :
    Recorded (log ++ [⟨i, past, c, l, seen, a⟩]) i c l (seen ++ [a]) := by
  intro before a' after heq
  rcases List.eq_nil_or_concat after with rfl | ⟨after, a'', rfl⟩
  · obtain ⟨rfl, ha⟩ := List.append_inj' heq rfl
    cases ha
    exact ⟨_, List.mem_append_right _ List.mem_cons_self, rfl, rfl, rfl, rfl, rfl⟩
  · rw [List.concat_eq_append, ← List.cons_append, ← List.append_assoc] at heq
    obtain ⟨e, he, hrest⟩ := h before a' after (List.append_inj' heq rfl).1
    exact ⟨e, List.mem_append_left _ he, hrest⟩

omit [DecidableEq ι] in
theorem Recorded.mono {log : List (O.Entry ι)} {i : ι} {c : O.Call} {l : O.Local}
    {seen : List O.Access} (h : Recorded log i c l seen) (e : O.Entry ι) :
    Recorded (log ++ [e]) i c l seen := by
  intro before a after heq
  obtain ⟨e', he, hrest⟩ := h before a after heq
  exact ⟨e', List.mem_append_left _ he, hrest⟩

/-- **Nothing is missing from the log**: it has an entry for every access of every call. -/
theorem Reachable.recorded {allow : O.Call → O.Local → Prop} {s₀ : O.Shared} {l₀ : ι → O.Local}
    {g : O.Config ι} (h : Reachable allow (start s₀ l₀) g) (i : ι) :
    (∀ d ∈ (g.client i).past, Recorded g.log i d.call d.start d.seen) ∧
      ∀ c l seen rest, (g.client i).thread = .busy c l seen rest → Recorded g.log i c l seen := by
  induction h with
  | refl => exact ⟨(fun _ hd => nomatch hd), nofun⟩
  | @tail g g' _ hs ih =>
    cases hs with
    | @call j past l c hj hen hal =>
      by_cases hij : i = j
      · subst hij
        rw [hj] at ih
        simp only [Function.update_self]
        refine ⟨ih.1, fun c' l' seen rest hb => ?_⟩
        cases hb
        intro before a after heq
        cases before <;> cases heq
      · simpa only [Function.update_of_ne hij] using ih
    | @access j past c l seen o next hj =>
      by_cases hij : i = j
      · subst hij
        rw [hj] at ih
        simp only [Function.update_self]
        refine ⟨fun d hd => (ih.1 d hd).mono _, fun c' l' seen' rest hb => ?_⟩
        cases hb
        exact (ih.2 c l seen _ rfl).concat past _
      · simp only [Function.update_of_ne hij]
        exact ⟨fun d hd => (ih.1 d hd).mono _,
          fun c' l' seen' rest hb => (ih.2 c' l' seen' rest hb).mono _⟩
    | @reply j past c l l' seen r hj =>
      by_cases hij : i = j
      · subst hij
        rw [hj] at ih
        simp only [Function.update_self]
        refine ⟨fun d hd => ?_, nofun⟩
        rcases List.mem_append.mp hd with hd | hd
        · exact ih.1 d hd
        · cases List.mem_singleton.mp hd
          exact ih.2 c l seen _ rfl
      · simpa only [Function.update_of_ne hij] using ih

/-! ## The judgement about one program -/

section Safe

variable (R : O.Shared → O.Shared → Prop) (A : O.Access → Prop)
  (Q : O.Reply × O.Local → O.Shared → Prop)

/-- Interfered with only by `R`, the program changes the shared state only by `R`, makes accesses
that satisfy `A`, and ends with `Q`. -/
def Safe : Prog O.Op O.Res (O.Reply × O.Local) → O.Shared → Prop
  | .done a, s => ∀ s', R s s' → Q a s'
  | .call o next, s => ∀ s', R s s' →
      R s' (O.perform o s').2 ∧ A ⟨s', o, (O.perform o s').1⟩ ∧
        Safe (next (O.perform o s').1) (O.perform o s').2

variable {R A Q}

/-- Interference before the program starts does no harm. -/
theorem Safe.stable (htrans : ∀ {a b c}, R a b → R b c → R a c)
    {p : Prog O.Op O.Res (O.Reply × O.Local)} {s s' : O.Shared} (h : Safe R A Q p s)
    (hs : R s s') : Safe R A Q p s' := by
  cases p with
  | done a => exact fun s'' h' => h s'' (htrans hs h')
  | call o next => exact fun s'' h' => h s'' (htrans hs h')

/-- A program whose operations leave the shared state alone; what follows it may use what it
saw. -/
theorem Safe.bind_of_quiet {α : Type} {quiet : O.Op → Prop}
    (hquiet : ∀ o s, quiet o → (O.perform o s).2 = s) (hrefl : ∀ s, R s s)
    (hA : ∀ a : O.Access, quiet a.op → A a) {p : Prog O.Op O.Res α}
    {f : α → Prog O.Op O.Res (O.Reply × O.Local)} {s : O.Shared}
    (hp : p.Ensures (fun _ _ => True) quiet fun _ => True)
    (hf : ∀ seen a s', Leads p seen (.done a) → Ordered R s seen s' → Safe R A Q (f a) s') :
    Safe R A Q (p >>= f) s := by
  induction p generalizing s with
  | done a => exact hf [] a s .nil (hrefl s)
  | call o next ih =>
    intro s' hs'
    have hsame : (O.perform o s').2 = s' := hquiet o s' hp.1
    refine ⟨hsame.symm ▸ hrefl s', hA _ hp.1, ?_⟩
    rw [hsame]
    refine ih _ (hp.2 _ trivial) fun seen a s'' hleads hord => ?_
    have hcons := Leads.cons (a := ⟨s', o, (O.perform o s').1⟩) rfl hleads
    exact hf _ a s'' hcons (ordered_cons.mpr ⟨hs', hord⟩)

end Safe

/-! ## The rule for all interleavings -/

/-- What the clients of an object promise each other. -/
structure Protocol (O : Object) where
  /-- The changes of the shared state that the other clients may make. -/
  rely : O.Shared → O.Shared → Prop
  refl : ∀ s, rely s s
  trans : ∀ {a b c}, rely a b → rely b c → rely a c
  /-- The state of a client between two calls. -/
  inv : O.Local → O.Shared → Prop
  stable : ∀ {l s s'}, inv l s → rely s s' → inv l s'
  /-- What every reply satisfies, from then on. -/
  reply : O.Reply → O.Shared → Prop
  replyStable : ∀ {r s s'}, reply r s → rely s s' → reply r s'
  /-- What every access satisfies. -/
  access : O.Access → Prop

namespace Protocol

variable (P : Protocol O)

/-- The obligation for one call. -/
def CallSafe (p : Prog O.Op O.Res (O.Reply × O.Local)) (s : O.Shared) : Prop :=
  Safe P.rely P.access (fun r s' => P.inv r.2 s' ∧ P.reply r.1 s') p s

/-- The client keeps its promises, whatever it is doing. -/
structure ClientOk (s : O.Shared) (k : O.Client) : Prop where
  past : ∀ d ∈ k.past, P.reply d.reply s
  idle : ∀ l, k.thread = .idle l → P.inv l s
  busy : ∀ c l seen rest, k.thread = .busy c l seen rest → P.CallSafe rest s

theorem ClientOk.stable {P : Protocol O} {s s' : O.Shared} {k : O.Client}
    (h : P.ClientOk s k) (hs : P.rely s s') : P.ClientOk s' k :=
  ⟨fun d hd => P.replyStable (h.past d hd) hs, fun l hl => P.stable (h.idle l hl) hs,
    fun c l seen rest hb => Safe.stable (R := P.rely) P.trans (h.busy c l seen rest hb) hs⟩

/-- What holds of a configuration reached from the shared state `s₀`: the clients keep their
promises, so did all accesses, and from one access to a later one the shared state has changed
only as anybody may rely on. -/
structure Good (s₀ : O.Shared) (g : O.Config ι) : Prop where
  client : ∀ i, P.ClientOk g.shared (g.client i)
  log : ∀ e ∈ g.log, P.access e.access
  order : g.log.Pairwise fun e e' => P.rely e.access.before e'.access.before
  since : ∀ e ∈ g.log, P.rely s₀ e.access.before ∧ P.rely e.access.before g.shared
  shared : P.rely s₀ g.shared

omit [DecidableEq ι] in
theorem Good.start {P : Protocol O} {s : O.Shared} {l : ι → O.Local}
    (h : ∀ i, P.inv (l i) s) : P.Good s (start s l : O.Config ι) where
  client i := ⟨by simp [Interleave.start], fun l' hl => by cases hl; exact h i, nofun⟩
  log := by simp [Interleave.start]
  order := by simp [Interleave.start]
  since := by simp [Interleave.start]
  shared := P.refl s

/-- One step keeps the promises. -/
theorem Good.step {P : Protocol O} {allow : O.Call → O.Local → Prop}
    (hbody : ∀ c l s, O.enabled c l → allow c l → P.inv l s → P.CallSafe (O.body c l) s)
    {s₀ : O.Shared} {g g' : O.Config ι} (h : P.Good s₀ g) (hs : Step allow g g') :
    P.Good s₀ g' := by
  cases hs with
  | @call i past l c hi hen hal =>
    refine ⟨fun j => ?_, h.log, h.order, h.since, h.shared⟩
    have hj := h.client j
    by_cases hij : j = i
    · subst hij
      rw [hi] at hj
      simp only [Function.update_self]
      refine ⟨hj.past, nofun, fun c' l' seen rest hb => ?_⟩
      cases hb
      exact hbody c l g.shared hen hal (hj.idle l rfl)
    · simpa [hij] using hj
  | @access i past c l seen o next hi =>
    have hown := h.client i
    rw [hi] at hown
    obtain ⟨hrely, hacc, hrest⟩ := hown.busy _ _ _ _ rfl g.shared (P.refl _)
    refine ⟨fun j => ?_, fun e he => ?_, ?_, fun e he => ?_, P.trans h.shared hrely⟩
    · by_cases hij : j = i
      · subst hij
        simp only [Function.update_self]
        refine ⟨(hown.stable hrely).past, nofun, fun c' l' seen' rest hb => ?_⟩
        cases hb
        exact hrest
      · simpa [hij] using (h.client j).stable hrely
    · rcases List.mem_append.mp he with he | he
      · exact h.log e he
      · rw [List.mem_singleton] at he
        subst he
        exact hacc
    · refine List.pairwise_append.mpr ⟨h.order, List.pairwise_singleton _ _, fun e he e' he' => ?_⟩
      rw [List.mem_singleton] at he'
      subst he'
      exact (h.since e he).2
    · rcases List.mem_append.mp he with he | he
      · exact ⟨(h.since e he).1, P.trans (h.since e he).2 hrely⟩
      · rw [List.mem_singleton] at he
        subst he
        exact ⟨h.shared, hrely⟩
  | @reply i past c l l' seen r hi =>
    refine ⟨fun j => ?_, h.log, h.order, h.since, h.shared⟩
    have hj := h.client j
    by_cases hij : j = i
    · subst hij
      rw [hi] at hj
      obtain ⟨hinv, hreply⟩ := hj.busy _ _ _ _ rfl g.shared (P.refl _)
      simp only [Function.update_self]
      refine ⟨fun d hd => ?_, fun l'' hl => ?_, nofun⟩
      · rcases List.mem_append.mp hd with hd | hd
        · exact hj.past d hd
        · rw [List.mem_singleton] at hd
          subst hd
          exact hreply
      · cases hl
        exact hinv
    · simpa [hij] using hj

/-- **Rely-guarantee**: calls that keep their promises keep them in every interleaving. -/
theorem reachable {P : Protocol O} {allow : O.Call → O.Local → Prop}
    (hbody : ∀ c l s, O.enabled c l → allow c l → P.inv l s → P.CallSafe (O.body c l) s)
    {s₀ : O.Shared} {g₀ g : O.Config ι} (h₀ : P.Good s₀ g₀) (h : Reachable allow g₀ g) :
    P.Good s₀ g := by
  induction h with
  | refl => exact h₀
  | tail _ hs ih => exact ih.step hbody hs

/-- What a client made one after another, it met in an order that follows `rely`. -/
theorem Good.own {P : Protocol O} {s₀ : O.Shared} {g : O.Config ι} (h : P.Good s₀ g) (i : ι) :
    (accessesOf g.log i).Pairwise (fun a a' => P.rely a.before a'.before) ∧
      ∀ a ∈ accessesOf g.log i, P.rely s₀ a.before ∧ P.rely a.before g.shared := by
  constructor
  · exact List.pairwise_map.mpr (h.order.filter _)
  · intro a ha
    obtain ⟨e, he, rfl⟩ := List.mem_map.mp ha
    exact h.since e (List.mem_filter.mp he).1

end Protocol

end Interleave
