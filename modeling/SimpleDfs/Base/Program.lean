import Mathlib.Logic.Function.Basic

/-!
# Programs that make calls

A program either has returned, or makes a call and goes on with the answer. What the calls do is
left open, so that one program can be run in different ways: `exec` runs it alone, from start to
end, against a function that answers the calls from a state.

When other programs act between its calls, what can be said of a program is that it keeps to a
protocol (`Follows`), which says for what the program knows which calls it may make. Then each of
its runs (`Runs`), whatever the answers are, has the properties that the protocol is for
(`Follows.runs`), and so has each of its calls (`Follows.calls`).
-/

/-- A program that makes calls of type `Call` and returns a value of type `α`. -/
inductive Program (Call : Type) (Answer : Call → Type) (α : Type) where
  /-- It has returned. -/
  | done (a : α)
  /-- It makes a call, and goes on with the answer. -/
  | call (c : Call) (next : Answer c → Program Call Answer α)

namespace Program

variable {Call : Type} {Answer : Call → Type} {α β σ : Type}

/-- One program after the other. -/
def bind : Program Call Answer α → (α → Program Call Answer β) → Program Call Answer β
  | done a, f => f a
  | call c next, f => call c fun a => (next a).bind f

instance : Monad (Program Call Answer) where
  pure := done
  bind := bind

/-- A program that returns at once. -/
@[simp] theorem pure_eq (a : α) : (pure a : Program Call Answer α) = done a := rfl

/-- What comes after a program that has returned. -/
@[simp] theorem done_bind (a : α) (f : α → Program Call Answer β) : done a >>= f = f a := rfl

/-- What comes after a call. -/
@[simp] theorem call_bind (c : Call) (next : Answer c → Program Call Answer α)
    (f : α → Program Call Answer β) : call c next >>= f = call c fun a => next a >>= f := rfl

/-- The program is run from start to end. A call that has no answer blocks it. -/
def exec (answer : (c : Call) → σ → Option (Answer c × σ)) :
    Program Call Answer α → σ → Option (α × σ)
  | done a, s => some (a, s)
  | call c next, s => (answer c s).bind fun (a, s') => (next a).exec answer s'

variable {answer : (c : Call) → σ → Option (Answer c × σ)}

/-- A program that has returned. -/
@[simp] theorem exec_done (a : α) (s : σ) : (done a : Program Call Answer α).exec answer s =
    some (a, s) := rfl

/-- A call that is answered. -/
theorem exec_call {c : Call} {next : Answer c → Program Call Answer α} {s s' : σ} {a : Answer c}
    (h : answer c s = some (a, s')) : (call c next).exec answer s = (next a).exec answer s' := by
  rw [exec, h, Option.bind_some]

/-- One program after the other, run from start to end. -/
theorem exec_bind (p : Program Call Answer α) (f : α → Program Call Answer β) (s : σ) :
    (p >>= f).exec answer s = (p.exec answer s).bind fun (a, s') => (f a).exec answer s' := by
  induction p generalizing s with
  | done a => rfl
  | call c next ih =>
    rw [call_bind, exec, exec]
    cases answer c s with
    | none => rfl
    | some result => exact ih result.1 result.2

/-- A property of the states that every call keeps holds after a program when it holds before. -/
theorem exec_preserves {I : σ → Prop} (h : ∀ c s a s', I s → answer c s = some (a, s') → I s')
    {p : Program Call Answer α} {s s' : σ} {a : α} (hexec : p.exec answer s = some (a, s'))
    (hs : I s) : I s' := by
  induction p generalizing s with
  | done b =>
    rw [exec_done, Option.some.injEq, Prod.mk.injEq] at hexec
    rw [← hexec.2]
    exact hs
  | call c next ih =>
    rw [exec, Option.bind_eq_some_iff] at hexec
    obtain ⟨⟨b, s₁⟩, hanswer, hrest⟩ := hexec
    exact ih b hrest (h c s b s₁ hs hanswer)

/-- The calls that a program makes until it returns, each with its answer, and what it returns. -/
inductive Runs : Program Call Answer α → List ((c : Call) × Answer c) → α → Prop
  /-- It has returned. -/
  | done (a : α) : Runs (done a) [] a
  /-- It makes a call and gets the answer `b`. -/
  | call {c : Call} {next : Answer c → Program Call Answer α} {trace : List ((c : Call) × Answer c)}
    {a : α} (b : Answer c) (h : Runs (next b) trace a) : Runs (call c next) (⟨c, b⟩ :: trace) a

/-- After some calls, each with its answer, the program makes the call `q`. -/
inductive Calls : Program Call Answer α → List ((c : Call) × Answer c) → Call → Prop
  /-- It makes the call at once. -/
  | here {q : Call} {next : Answer q → Program Call Answer α} : Calls (call q next) [] q
  /-- It makes another call before, and gets the answer `b`. -/
  | later {c q : Call} {next : Answer c → Program Call Answer α}
    {trace : List ((c : Call) × Answer c)} (b : Answer c) (h : Calls (next b) trace q) :
    Calls (call c next) (⟨c, b⟩ :: trace) q

/-! ## Protocols -/

/-- The rules for a program that knows a value of type `V`. -/
structure Protocol (Call : Type) (Answer : Call → Type) (V : Type) where
  /-- The calls that the program may make. -/
  allows : V → Call → Prop
  /-- The answers that it gets. -/
  answers : V → (c : Call) → Answer c → Prop
  /-- What it knows after the answer. -/
  after : V → (c : Call) → Answer c → V

variable {V : Type}

/-- The program keeps to the rules from here on, whatever the answers are, and `post` holds of what
it returns and of what it knows then. -/
def Follows (P : Protocol Call Answer V) (post : α → V → Prop) : Program Call Answer α → V → Prop
  | done a, v => post a v
  | call c next, v =>
    P.allows v c ∧ ∀ a, P.answers v c a → (next a).Follows P post (P.after v c a)

variable {P : Protocol Call Answer V}

/-- A program that makes a call. -/
theorem follows_call {post : α → V → Prop} {c : Call} {next : Answer c → Program Call Answer α}
    {v : V} : (call c next).Follows P post v ↔
      P.allows v c ∧ ∀ a, P.answers v c a → (next a).Follows P post (P.after v c a) := Iff.rfl

/-- One program after the other. -/
theorem follows_bind {post : β → V → Prop} (p : Program Call Answer α)
    (f : α → Program Call Answer β) (v : V) : (p >>= f).Follows P post v ↔
      p.Follows P (fun a v' => (f a).Follows P post v') v := by
  induction p generalizing v with
  | done a => rfl
  | call c next ih =>
    rw [call_bind, follows_call, follows_call]
    exact and_congr_right fun _ => forall₂_congr fun a _ => ih a _

/-- A weaker condition on what is returned. -/
theorem Follows.mono {post post' : α → V → Prop} {p : Program Call Answer α} {v : V}
    (h : p.Follows P post v) (hpost : ∀ a v', post a v' → post' a v') : p.Follows P post' v := by
  induction p generalizing v with
  | done a => exact hpost a v h
  | call c next ih => exact ⟨h.1, fun a ha => ih a (h.2 a ha)⟩

/-- A program that keeps to the rules, run from start to end: what holds between what the program
knows and the state, and is kept by every call, holds at the end. -/
theorem Follows.exec {post : α → V → Prop} {p : Program Call Answer α} {v : V}
    (h : p.Follows P post v) {I : V → σ → Prop}
    (hcall : ∀ v s c a s', I v s → P.allows v c → answer c s = some (a, s') →
      P.answers v c a ∧ I (P.after v c a) s') {s s' : σ} {a : α} (hs : I v s)
    (hexec : p.exec answer s = some (a, s')) : ∃ v', post a v' ∧ I v' s' := by
  induction p generalizing v s with
  | done b =>
    rw [exec_done, Option.some.injEq, Prod.mk.injEq] at hexec
    obtain ⟨rfl, rfl⟩ := hexec
    exact ⟨v, h, hs⟩
  | call c next ih =>
    rw [Program.exec, Option.bind_eq_some_iff] at hexec
    obtain ⟨⟨b, s₁⟩, hanswer, hrest⟩ := hexec
    obtain ⟨hb, hs₁⟩ := hcall v s c b s₁ hs h.1 hanswer
    exact ih b (h.2 b hb) hs₁ hrest

/-- What is known after some calls and their answers. -/
def Protocol.afterAll (P : Protocol Call Answer V) (v : V) : List ((c : Call) × Answer c) → V
  | [] => v
  | ⟨c, a⟩ :: trace => P.afterAll (P.after v c a) trace

/-- The answers are those of the protocol. -/
def Protocol.Answered (P : Protocol Call Answer V) : V → List ((c : Call) × Answer c) → Prop
  | _, [] => True
  | v, ⟨c, a⟩ :: trace => P.answers v c a ∧ P.Answered (P.after v c a) trace

/-- The calls are those that the protocol allows. -/
def Protocol.Allowed (P : Protocol Call Answer V) : V → List ((c : Call) × Answer c) → Prop
  | _, [] => True
  | v, ⟨c, a⟩ :: trace => P.allows v c ∧ P.Allowed (P.after v c a) trace

/-- A run of a program that keeps to the rules. -/
theorem Follows.runs {post : α → V → Prop} {p : Program Call Answer α} {v : V}
    (h : p.Follows P post v) {trace : List ((c : Call) × Answer c)} {a : α} (hrun : p.Runs trace a)
    (hanswered : P.Answered v trace) : P.Allowed v trace ∧ post a (P.afterAll v trace) := by
  induction hrun generalizing v with
  | done a => exact ⟨trivial, h⟩
  | call b hrun ih =>
    rw [follows_call] at h
    obtain ⟨hallowed, hpost⟩ := ih (h.2 b hanswered.1) hanswered.2
    exact ⟨⟨h.1, hallowed⟩, hpost⟩

/-- A call of a program that keeps to the rules, when no answer is excluded. -/
theorem Follows.calls {post : α → V → Prop} {p : Program Call Answer α} {v : V}
    (h : p.Follows P post v) (hanswers : ∀ v c a, P.answers v c a)
    {trace : List ((c : Call) × Answer c)} {q : Call} (hcalls : p.Calls trace q) :
    P.allows (P.afterAll v trace) q := by
  induction hcalls generalizing v with
  | here => exact h.1
  | later b _ ih => exact ih (h.2 b (hanswers _ _ b))

end Program
