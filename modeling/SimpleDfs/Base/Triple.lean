import SimpleDfs.Base.Program

/-!
# Preconditions and postconditions of programs that make calls

`Triple answer P p Q` says of a program `p` that is run alone: from each state with `P` it returns,
and `Q` holds of what it returns and of the state then. A call that blocks is no way to satisfy it.
The rules follow the program: `Triple.done`, `Triple.call` for one call, `Triple.bind` for one
program after the other, and `Triple.mono` to weaken.

`Returns post p` is about what a program returns when nothing is known of the answers. It holds of
each of its runs, whoever acts between the calls (`Returns.runs`).
-/

namespace Program

variable {Call : Type} {Answer : Call → Type} {α β σ : Type}

/-- From each state with `P` the program returns, with `Q`. -/
def Triple (answer : (c : Call) → σ → Option (Answer c × σ)) (P : σ → Prop)
    (p : Program Call Answer α) (Q : α → σ → Prop) : Prop :=
  ∀ s, P s → ∃ a s', p.exec answer s = some (a, s') ∧ Q a s'

namespace Triple

variable {answer : (c : Call) → σ → Option (Answer c × σ)} {P P' : σ → Prop}
  {p : Program Call Answer α} {Q : α → σ → Prop}

/-- A program that has returned. -/
theorem done {a : α} (h : ∀ s, P s → Q a s) :
    Triple answer P (Program.done a) Q :=
  fun s hs => ⟨a, s, rfl, h s hs⟩

/-- One call. -/
theorem call {c : Call} {next : Answer c → Program Call Answer α} {R : Answer c → σ → Prop}
    (hcall : ∀ s, P s → ∃ a s', answer c s = some (a, s') ∧ R a s')
    (hnext : ∀ a, Triple answer (R a) (next a) Q) :
    Triple answer P (Program.call c next) Q := by
  intro s hs
  obtain ⟨a, s₁, hanswer, hR⟩ := hcall s hs
  obtain ⟨b, s₂, hexec, hQ⟩ := hnext a s₁ hR
  exact ⟨b, s₂, (exec_call hanswer).trans hexec, hQ⟩

/-- One program after the other. -/
theorem bind {f : α → Program Call Answer β} {R : α → σ → Prop} {Q : β → σ → Prop}
    (hp : Triple answer P p R) (hf : ∀ a, Triple answer (R a) (f a) Q) :
    Triple answer P (p >>= f) Q := by
  intro s hs
  obtain ⟨a, s₁, hexec, hR⟩ := hp s hs
  obtain ⟨b, s₂, hexec', hQ⟩ := hf a s₁ hR
  refine ⟨b, s₂, ?_, hQ⟩
  rw [exec_bind, hexec]
  exact hexec'

/-- A stronger precondition and a weaker postcondition. -/
theorem mono {Q Q' : α → σ → Prop} (h : Triple answer P p Q) (hP : ∀ s, P' s → P s)
    (hQ : ∀ a s, Q a s → Q' a s) : Triple answer P' p Q' := by
  intro s hs
  obtain ⟨a, s', hexec, hq⟩ := h s (hP s hs)
  exact ⟨a, s', hexec, hQ a s' hq⟩

/-- A fact about what was returned before, that does not concern the state. -/
theorem of_pure {φ : Prop} (h : φ → Triple answer P p Q) : Triple answer (fun s => φ ∧ P s) p Q :=
  fun s hs => h hs.1 s hs.2

end Triple

/-- Whatever the answers are, `post` holds of what the program returns. -/
def Returns (post : α → Prop) : Program Call Answer α → Prop
  | done a => post a
  | call _ next => ∀ a, (next a).Returns post

/-- One program after the other. -/
theorem returns_bind {post : β → Prop} (p : Program Call Answer α)
    (f : α → Program Call Answer β) :
    (p >>= f).Returns post ↔ p.Returns fun a => (f a).Returns post := by
  induction p with
  | done a => rfl
  | call c next ih => exact forall_congr' ih

namespace Returns

variable {post : α → Prop}

/-- What holds of every value holds of what is returned. -/
theorem of_forall (h : ∀ a, post a) (p : Program Call Answer α) : p.Returns post := by
  induction p with
  | done a => exact h a
  | call c next ih => exact ih

/-- A weaker condition. -/
theorem mono {post' : α → Prop} {p : Program Call Answer α} (h : p.Returns post)
    (hpost : ∀ a, post a → post' a) : p.Returns post' := by
  induction p with
  | done a => exact hpost a h
  | call c next ih => exact fun a => ih a (h a)

/-- A run of the program. -/
theorem runs {p : Program Call Answer α} (h : p.Returns post)
    {trace : List ((c : Call) × Answer c)} {a : α} (hrun : p.Runs trace a) : post a := by
  induction hrun with
  | done a => exact h
  | call b _ ih => exact ih (h b)

end Returns

end Program
