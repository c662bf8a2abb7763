import Mathlib.Logic.Relation

/-!
# Runs of a transition system whose events are named

A system gives its initial states and, for each event, the state after it, with `none` for an event
that is not possible. A run may be restricted by a guard, a condition on each event and the state
before it; the unrestricted runs are those under the guard `anything`. A property of all reachable
states is proved by `Reachable.invariant`, and a property of the two ends of a run by
`Steps.relation`. `exec` and `execGuarded` compute a run from a list of events, so that a concrete
run can be evaluated.
-/

/-- A transition system with named events. -/
structure System (σ ε : Type*) where
  /-- The states that a run may start from. -/
  init : σ → Prop
  /-- The state after an event, or `none` when the event is not possible. -/
  step : σ → ε → Option σ

namespace System

variable {σ ε : Type*} (M : System σ ε)

/-- The guard that admits every event. -/
def anything : σ → ε → Prop := fun _ _ => True

/-- One step of a run under the guard `G`. -/
def Step (G : σ → ε → Prop) (s s' : σ) : Prop := ∃ e, G s e ∧ M.step s e = some s'

/-- A run of any length under the guard `G`. -/
def Steps (G : σ → ε → Prop) : σ → σ → Prop := Relation.ReflTransGen (M.Step G)

/-- A state that a run under the guard `G` reaches from an initial state. -/
def Reachable (G : σ → ε → Prop) (s : σ) : Prop := ∃ s₀, M.init s₀ ∧ M.Steps G s₀ s

variable {M} {G : σ → ε → Prop} {I : σ → Prop} {s s' : σ}

/-- An initial state is reachable. -/
theorem Reachable.of_init {s : σ} (h : M.init s) : M.Reachable G s :=
  ⟨s, h, Relation.ReflTransGen.refl⟩

/-- A run from a reachable state ends in a reachable state. -/
theorem Reachable.steps (h : M.Reachable G s) (hs : M.Steps G s s') :
    M.Reachable G s' := by
  obtain ⟨s₀, h₀, hr⟩ := h
  exact ⟨s₀, h₀, hr.trans hs⟩

/-- A property that every step keeps holds at the end of a run when it holds at its start. -/
theorem Steps.preserves (hstep : ∀ s e s', I s → G s e → M.step s e = some s' → I s')
    (h : M.Steps G s s') (hs : I s) : I s' := by
  induction h with
  | refl => exact hs
  | tail _ hlast ih =>
    obtain ⟨e, hG, he⟩ := hlast
    exact hstep _ e _ ih hG he

/-- A property that holds initially and that every step keeps holds in every reachable state. -/
theorem Reachable.invariant (hinit : ∀ s, M.init s → I s)
    (hstep : ∀ s e s', I s → G s e → M.step s e = some s' → I s') {s : σ} (h : M.Reachable G s) :
    I s := by
  obtain ⟨s₀, h₀, hr⟩ := h
  exact Steps.preserves hstep hr (hinit s₀ h₀)

/-- A transitive relation between the ends of each step, under an invariant, relates the ends of
every run. -/
theorem Steps.relation {R : σ → σ → Prop} (hrefl : ∀ s, R s s)
    (htrans : ∀ a b c, R a b → R b c → R a c)
    (hkeep : ∀ s e s', I s → G s e → M.step s e = some s' → I s')
    (hstep : ∀ s e s', I s → G s e → M.step s e = some s' → R s s') (h : M.Steps G s s')
    (hs : I s) : R s s' := by
  induction h with
  | refl => exact hrefl s
  | tail hrun hlast ih =>
    obtain ⟨e, hG, he⟩ := hlast
    exact htrans _ _ _ ih (hstep _ e _ (Steps.preserves hkeep hrun hs) hG he)

section Exec

/-- The state after a list of events, when each of them is possible. -/
def exec (M : System σ ε) : σ → List ε → Option σ
  | s, [] => some s
  | s, e :: es => (M.step s e).bind fun s' => M.exec s' es

/-- The state after a list of events, when each of them is possible and meets the guard. -/
def execGuarded (M : System σ ε) (G : σ → ε → Prop) [∀ s e, Decidable (G s e)] :
    σ → List ε → Option σ
  | s, [] => some s
  | s, e :: es => if G s e then (M.step s e).bind fun s' => M.execGuarded G s' es else none

variable {es : List ε} {s s' : σ}

/-- A computed run is a run without restriction. -/
theorem steps_of_exec (h : M.exec s es = some s') :
    M.Steps anything s s' := by
  induction es generalizing s with
  | nil =>
    rw [exec, Option.some.injEq] at h
    rw [h]
    exact Relation.ReflTransGen.refl
  | cons e es ih =>
    obtain ⟨s₁, h₁, h₂⟩ := Option.bind_eq_some_iff.mp h
    exact Relation.ReflTransGen.head ⟨e, trivial, h₁⟩ (ih h₂)

/-- A computed run that meets the guard is a run under the guard. -/
theorem steps_of_execGuarded [∀ s e, Decidable (G s e)] (h : M.execGuarded G s es = some s') :
    M.Steps G s s' := by
  induction es generalizing s with
  | nil =>
    rw [execGuarded, Option.some.injEq] at h
    rw [h]
    exact Relation.ReflTransGen.refl
  | cons e es ih =>
    unfold execGuarded at h
    split at h
    next hG =>
      obtain ⟨s₁, h₁, h₂⟩ := Option.bind_eq_some_iff.mp h
      exact Relation.ReflTransGen.head ⟨e, hG, h₁⟩ (ih h₂)
    next => cases h

/-- A computed run from an initial state. -/
theorem Reachable.of_exec (h : M.exec s es = some s') (hs : M.init s) :
    M.Reachable anything s' := ⟨s, hs, steps_of_exec h⟩

/-- A computed run from an initial state that meets the guard. -/
theorem Reachable.of_execGuarded [∀ s e, Decidable (G s e)] (h : M.execGuarded G s es = some s')
    (hs : M.init s) : M.Reachable G s' :=
  ⟨s, hs, steps_of_execGuarded h⟩

/-- A run that meets the guard is computed without it as well. -/
theorem exec_of_execGuarded [∀ s e, Decidable (G s e)] (h : M.execGuarded G s es = some s') :
    M.exec s es = some s' := by
  induction es generalizing s with
  | nil => exact h
  | cons e es ih =>
    unfold execGuarded at h
    split at h
    next hG =>
      obtain ⟨s₁, h₁, h₂⟩ := Option.bind_eq_some_iff.mp h
      rw [exec, h₁]
      exact ih h₂
    next => cases h

end Exec

end System
