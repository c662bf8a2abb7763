import SimpleDfs.Base.System

/-!
# Refinement of one system by another

What a lower system does is observed as events of an upper one: each step of the lower system shows
a list of events, which is empty for an internal step. `Simulation` is a relation between the states
such that the upper system can follow: it takes the observed events and ends in a related state.
Then what is observed of a whole run is a run of the upper system (`Simulation.exec`).
-/

namespace System

variable {σ ε τ η : Type*}

/-- What is observed of a run, up to the first event that is not possible. -/
def observe (M : System σ ε) (obs : σ → ε → σ → List η) : σ → List ε → List η
  | _, [] => []
  | s, e :: es =>
    (M.step s e).elim [] fun s' => obs s e s' ++ M.observe obs s' es

/-- The upper system follows the lower one through the relation. -/
structure Simulation (M : System σ ε) (N : System τ η) (obs : σ → ε → σ → List η)
    (R : σ → τ → Prop) : Prop where
  /-- An initial state has a related initial state. -/
  init : ∀ s, M.init s → ∃ t, N.init t ∧ R s t
  /-- What is observed of a step can be done from a related state, and leads to one. -/
  step : ∀ s e s' t, R s t → M.step s e = some s' →
    ∃ t', N.exec t (obs s e s') = some t' ∧ R s' t'

variable {M : System σ ε} {N : System τ η}

/-- One list of events after the other. -/
theorem exec_append (s : σ) (es es' : List ε) :
    M.exec s (es ++ es') = (M.exec s es).bind fun s' => M.exec s' es' := by
  induction es generalizing s with
  | nil => rfl
  | cons e es ih =>
    rw [List.cons_append, exec, exec, Option.bind_assoc]
    exact congrArg _ (funext ih)

/-- What is observed of a run is a run of the upper system. -/
theorem Simulation.exec {obs : σ → ε → σ → List η} {R : σ → τ → Prop} (h : Simulation M N obs R)
    {es : List ε} {s s' : σ} {t : τ} (hR : R s t) (hexec : M.exec s es = some s') :
    ∃ t', N.exec t (M.observe obs s es) = some t' ∧ R s' t' := by
  induction es generalizing s t with
  | nil =>
    obtain rfl := Option.some.inj hexec
    exact ⟨t, rfl, hR⟩
  | cons e es ih =>
    obtain ⟨s₁, hstep, hrest⟩ := Option.bind_eq_some_iff.mp hexec
    obtain ⟨t₁, ht₁, hR₁⟩ := h.step s e s₁ t hR hstep
    obtain ⟨t', ht', hR'⟩ := ih hR₁ hrest
    refine ⟨t', ?_, hR'⟩
    rw [observe, hstep, Option.elim_some, exec_append, ht₁]
    exact ht'

/-- What is observed of a run when it depends on the events only. -/
theorem observe_eq_flatMap {obs : σ → ε → σ → List η} {f : ε → List η}
    (hobs : ∀ s e s', obs s e s' = f e) {es : List ε} {s s' : σ} (h : M.exec s es = some s') :
    M.observe obs s es = es.flatMap f := by
  induction es generalizing s with
  | nil => rfl
  | cons e es ih =>
    obtain ⟨s₁, hstep, hrest⟩ := Option.bind_eq_some_iff.mp h
    rw [observe, hstep, Option.elim_some, hobs, ih hrest, List.flatMap_cons]

end System
