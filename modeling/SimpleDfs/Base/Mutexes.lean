import Mathlib.Data.Set.Insert
import SimpleDfs.Base.System

/-!
# Threads that take mutexes

What matters of a thread here is the order in which it locks and unlocks mutexes: its script.
`within` is a script under a mutex, and `outside` one for which a mutex that the thread has is given
up and taken again. A thread gives the mutexes up in the reverse order in which it took them, so
that the mutexes that it has are a stack.

Threads that wait for mutexes of each other do so for ever (`WaitsFor.steps`). If mutexes have
ranks, and threads take them in the order of their ranks (`Runs`), this cannot happen: the thread
that has what another one waits for would wait for something of a higher rank. Then every thread can
go on, once the others have (`Ordered.can_go_on`). `Runs` has one rule for each way of putting
scripts together.
-/

namespace Mutexes

variable {M ι : Type*}

/-- A thread locks or unlocks a mutex. -/
inductive Action (M : Type*) where
  /-- It locks the mutex, and waits until it can. -/
  | lock (m : M)
  /-- It unlocks the mutex. -/
  | unlock (m : M)
  deriving DecidableEq, Repr

/-- A script under a mutex. -/
def within (m : M) (body : List (Action M)) : List (Action M) := .lock m :: (body ++ [.unlock m])

/-- A script for which the mutex is given up. -/
def outside (m : M) (body : List (Action M)) : List (Action M) := .unlock m :: (body ++ [.lock m])

/-! ## Ranks -/

/-- All of these mutexes have a lower rank. -/
def Below (rank : M → ℕ) (held : List M) (m : M) : Prop := ∀ x ∈ held, rank x < rank m

/-- A thread that has `held` can run the script, has `held'` then, and takes mutexes only in the
order of their ranks. -/
def Runs (rank : M → ℕ) : List M → List (Action M) → List M → Prop
  | held, [], held' => held = held'
  | held, .lock m :: rest, held' => Below rank held m ∧ Runs rank (m :: held) rest held'
  | held, .unlock m :: rest, held' => ∃ held₀, held = m :: held₀ ∧ Runs rank held₀ rest held'

namespace Runs

variable {rank : M → ℕ} {held held' held'' : List M} {a b body : List (Action M)} {m : M}

/-- Nothing. -/
theorem nil : Runs rank held [] held := rfl

/-- One script after the other. -/
theorem append (ha : Runs rank held a held') (hb : Runs rank held' b held'') :
    Runs rank held (a ++ b) held'' := by
  induction a generalizing held with
  | nil =>
    obtain rfl : held = held' := ha
    exact hb
  | cons action rest ih =>
    cases action with
    | lock m => exact ⟨ha.1, ih ha.2⟩
    | unlock m =>
      obtain ⟨held₀, rfl, hrest⟩ := ha
      exact ⟨held₀, rfl, ih hrest⟩

/-- A script under a mutex. -/
theorem within (hbelow : Below rank held m) (hbody : Runs rank (m :: held) body (m :: held)) :
    Runs rank held (Mutexes.within m body) held :=
  ⟨hbelow, hbody.append ⟨held, rfl, rfl⟩⟩

/-- A script for which the mutex is given up. -/
theorem outside (hbelow : Below rank held m) (hbody : Runs rank held body held) :
    Runs rank (m :: held) (Mutexes.outside m body) (m :: held) :=
  ⟨held, rfl, hbody.append ⟨hbelow, rfl⟩⟩

/-- The same for each element of a list. -/
theorem flatMap {α : Type*} {l : List α} {f : α → List (Action M)}
    (h : ∀ x ∈ l, Runs rank held (f x) held) : Runs rank held (l.flatMap f) held := by
  induction l with
  | nil => rfl
  | cons x l ih =>
    rw [List.flatMap_cons]
    exact (h x List.mem_cons_self).append (ih fun y hy => h y (List.mem_cons_of_mem x hy))

end Runs

/-- A thread that has `held` can run the script up to where it has `held'` and locks `m`. -/
def Arrives (rank : M → ℕ) (held : List M) (script : List (Action M)) (held' : List M) (m : M) :
    Prop :=
  ∃ a b, script = a ++ .lock m :: b ∧ Runs rank held a held'

namespace Arrives

variable {rank : M → ℕ} {held held' held'' : List M} {a b body : List (Action M)} {m x : M}

/-- It locks the mutex first. -/
theorem lock : Arrives rank held (Mutexes.within m body) held m := ⟨[], _, rfl, rfl⟩

/-- In the first part of the script. -/
theorem append_left (h : Arrives rank held a held' m) : Arrives rank held (a ++ b) held' m := by
  obtain ⟨c, d, rfl, hruns⟩ := h
  exact ⟨c, d ++ b, by rw [List.append_assoc, List.cons_append], hruns⟩

/-- In the second part of the script. -/
theorem append_right (ha : Runs rank held a held') (h : Arrives rank held' b held'' m) :
    Arrives rank held (a ++ b) held'' m := by
  obtain ⟨c, d, rfl, hruns⟩ := h
  exact ⟨a ++ c, d, by rw [List.append_assoc], ha.append hruns⟩

/-- Under a mutex. -/
theorem within (hbelow : Below rank held x) (h : Arrives rank (x :: held) body held' m) :
    Arrives rank held (Mutexes.within x body) held' m := by
  obtain ⟨c, d, rfl, hruns⟩ := h
  exact ⟨.lock x :: c, d ++ [.unlock x], by simp [Mutexes.within], hbelow, hruns⟩

/-- Where a mutex is given up. -/
theorem outside (h : Arrives rank held body held' m) :
    Arrives rank (x :: held) (Mutexes.outside x body) held' m := by
  obtain ⟨c, d, rfl, hruns⟩ := h
  exact ⟨.unlock x :: c, d ++ [.lock x], by simp [Mutexes.outside], held, rfl, hruns⟩

/-- For an element of a list. -/
theorem flatMap {α : Type*} {l : List α} {f : α → List (Action M)} {y : α} (hy : y ∈ l)
    (hruns : ∀ x ∈ l, Runs rank held (f x) held) (h : Arrives rank held (f y) held' m) :
    Arrives rank held (l.flatMap f) held' m := by
  obtain ⟨before, after, rfl⟩ := List.append_of_mem hy
  rw [List.flatMap_append, List.flatMap_cons]
  refine append_right (.flatMap fun x hx => hruns x (List.mem_append_left _ hx)) h.append_left

end Arrives

/-! ## Threads -/

/-- What the threads have still to do, and who has the mutexes. -/
structure State (ι M : Type*) where
  /-- The rest of the script of each thread. -/
  rest : ι → List (Action M)
  /-- The thread that has a mutex. -/
  owner : M → Option ι

variable [DecidableEq ι] [DecidableEq M] {s s' : State ι M} {scripts : ι → List (Action M)} {i : ι}
  {k : ι}

/-- The next step of a thread. -/
def State.step (s : State ι M) (i : ι) : Option (State ι M) :=
  match s.rest i with
  | [] => none
  | .lock m :: rest =>
    if s.owner m = none then
      some ⟨Function.update s.rest i rest, Function.update s.owner m (some i)⟩
    else none
  | .unlock m :: rest =>
    if s.owner m = some i then
      some ⟨Function.update s.rest i rest, Function.update s.owner m none⟩
    else none

/-- Threads with these scripts. -/
def threads (scripts : ι → List (Action M)) : System (State ι M) ι where
  init s := s = ⟨scripts, fun _ => none⟩
  step := State.step

/-- What a step does. -/
theorem step_cases (h : s.step i = some s') :
    (∃ m rest, s.rest i = .lock m :: rest ∧ s.owner m = none ∧
      s' = ⟨Function.update s.rest i rest, Function.update s.owner m (some i)⟩) ∨
    ∃ m rest, s.rest i = .unlock m :: rest ∧ s.owner m = some i ∧
      s' = ⟨Function.update s.rest i rest, Function.update s.owner m none⟩ := by
  unfold State.step at h
  split at h
  · cases h
  next m rest hrest =>
    split_ifs at h with howner
    exact Or.inl ⟨m, rest, hrest, howner, (Option.some.inj h).symm⟩
  next m rest hrest =>
    split_ifs at h with howner
    exact Or.inr ⟨m, rest, hrest, howner, (Option.some.inj h).symm⟩

/-- A step makes the script of its thread shorter. -/
theorem length_of_step (hstep : s.step k = some s') :
    (s'.rest k).length < (s.rest k).length := by
  rcases step_cases hstep with ⟨m, rest, hrest, -, rfl⟩ | ⟨m, rest, hrest, -, rfl⟩
  · dsimp only
    rw [hrest, Function.update_self]
    exact Nat.lt_succ_self _
  · dsimp only
    rw [hrest, Function.update_self]
    exact Nat.lt_succ_self _

/-- A step leaves the other threads where they are, with the mutexes that they have. -/
theorem other_of_step {k i : ι} (hik : i ≠ k) (hstep : s.step k = some s') :
    s'.rest i = s.rest i ∧ ∀ m, s.owner m = some i → s'.owner m = some i := by
  rcases step_cases hstep with ⟨m, rest, -, hfree, rfl⟩ | ⟨m, rest, -, hown, rfl⟩
  · refine ⟨Function.update_of_ne hik _ _, fun x hx => ?_⟩
    have hne : x ≠ m := by
      rintro rfl
      rw [hfree] at hx
      cases hx
    exact (Function.update_of_ne hne _ _).trans hx
  · refine ⟨Function.update_of_ne hik _ _, fun x hx => ?_⟩
    have hne : x ≠ m := by
      rintro rfl
      rw [hown] at hx
      exact hik (Option.some.inj hx).symm
    exact (Function.update_of_ne hne _ _).trans hx

/-- Each of the threads in `D` waits for a mutex that one of them has. -/
def WaitsFor (D : Set ι) (s : State ι M) : Prop :=
  ∀ i ∈ D, ∃ m rest, s.rest i = .lock m :: rest ∧ ∃ j ∈ D, s.owner m = some j

omit [DecidableEq ι] [DecidableEq M] in
/-- Two threads that wait for each other. -/
theorem waitsFor_of_two {s : State ι M} {i j : ι} {m m' : M} {rest rest' : List (Action M)}
    (hi : s.rest i = .lock m :: rest) (hj : s.rest j = .lock m' :: rest')
    (hm : s.owner m = some j) (hm' : s.owner m' = some i) : WaitsFor {i, j} s := by
  rintro k (rfl | rfl)
  · exact ⟨m, rest, hi, j, Or.inr rfl, hm⟩
  · exact ⟨m', rest', hj, i, Or.inl rfl, hm'⟩

/-- Threads that wait for each other do so for ever. -/
theorem WaitsFor.steps {D : Set ι} (h : WaitsFor D s)
    (hsteps : (threads scripts).Steps System.anything s s') :
    WaitsFor D s' ∧ ∀ i ∈ D, s'.rest i = s.rest i := by
  induction hsteps with
  | refl => exact ⟨h, fun _ _ => rfl⟩
  | @tail s₁ s₂ _ hlast ih =>
    obtain ⟨hwaits, hsame⟩ := ih
    obtain ⟨k, -, hstep⟩ := hlast
    -- The thread that takes a step is none of them.
    have hk : k ∉ D := by
      intro hk
      obtain ⟨m, rest, hrest, j, -, howner⟩ := hwaits k hk
      rcases step_cases hstep with ⟨m', rest', hrest', hfree, -⟩ | ⟨m', rest', hrest', -, -⟩
      · rw [hrest] at hrest'
        cases hrest'
        rw [howner] at hfree
        cases hfree
      · rw [hrest] at hrest'
        cases hrest'
    have hother : ∀ i ∈ D, i ≠ k := fun i hi heq => hk (heq ▸ hi)
    refine ⟨fun i hi => ?_, fun i hi => (other_of_step (hother i hi) hstep).1.trans (hsame i hi)⟩
    obtain ⟨m, rest, hrest, j, hj, hm⟩ := hwaits i hi
    exact ⟨m, rest, (other_of_step (hother i hi) hstep).1.trans hrest, j, hj,
      (other_of_step (hother j hj) hstep).2 m hm⟩

/-! ## Who has which mutexes -/

/-- A thread has these mutexes. -/
def Has (owner : M → Option ι) (i : ι) (held : List M) : Prop :=
  ∀ m, owner m = some i ↔ m ∈ held

namespace Has

variable {owner : M → Option ι} {i k : ι} {m : M} {held : List M}

omit [DecidableEq ι] in
/-- The thread takes a mutex. -/
theorem take (h : Has owner i held) : Has (Function.update owner m (some i)) i (m :: held) := by
  intro x
  rw [Function.update_apply, List.mem_cons]
  by_cases hx : x = m
  · rw [if_pos hx]
    exact ⟨fun _ => Or.inl hx, fun _ => rfl⟩
  · rw [if_neg hx, h x]
    exact ⟨Or.inr, fun hor => hor.resolve_left hx⟩

omit [DecidableEq ι] in
/-- Another thread takes a mutex that was free. -/
theorem take_other (h : Has owner i held) (hik : i ≠ k) (hfree : owner m = none) :
    Has (Function.update owner m (some k)) i held := by
  intro x
  rw [Function.update_apply]
  by_cases hx : x = m
  · rw [if_pos hx, ← h x, hx, hfree]
    exact ⟨fun heq => absurd (Option.some.inj heq).symm hik, nofun⟩
  · rw [if_neg hx]
    exact h x

omit [DecidableEq ι] in
/-- The thread gives a mutex up. -/
theorem give (h : Has owner i (m :: held)) (hnew : m ∉ held) :
    Has (Function.update owner m none) i held := by
  intro x
  rw [Function.update_apply]
  by_cases hx : x = m
  · rw [if_pos hx, hx]
    exact ⟨nofun, fun hmem => absurd hmem hnew⟩
  · rw [if_neg hx, h x, List.mem_cons]
    exact ⟨fun hor => hor.resolve_left hx, Or.inr⟩

omit [DecidableEq ι] in
/-- Another thread gives a mutex up that it had. -/
theorem give_other (h : Has owner i held) (hik : i ≠ k) (hown : owner m = some k) :
    Has (Function.update owner m none) i held := by
  intro x
  rw [Function.update_apply]
  by_cases hx : x = m
  · rw [if_pos hx, ← h x, hx, hown]
    exact ⟨nofun, fun heq => absurd (Option.some.inj heq).symm hik⟩
  · rw [if_neg hx]
    exact h x

end Has

/-- Every thread runs in the order of the ranks. -/
def Ordered (rank : M → ℕ) (s : State ι M) : Prop :=
  ∀ i, ∃ held, held.Nodup ∧ Has s.owner i held ∧ Runs rank held (s.rest i) []

namespace Ordered

variable {rank : M → ℕ} {s s' : State ι M} {scripts : ι → List (Action M)} {k : ι}

omit [DecidableEq ι] [DecidableEq M] in
/-- The threads have no mutexes at first. -/
theorem start (h : ∀ i, Runs rank [] (scripts i) []) :
    Ordered rank ⟨scripts, fun _ => none⟩ := by
  intro i
  refine ⟨[], List.nodup_nil, fun m => ⟨fun hm => ?_, fun hm => ?_⟩, h i⟩
  · cases hm
  · cases hm

/-- Every step keeps the order. -/
theorem step (h : Ordered rank s) (hstep : s.step k = some s') : Ordered rank s' := by
  intro i
  obtain ⟨held, hnodup, hhas, hruns⟩ := h i
  rcases step_cases hstep with ⟨m, rest, hrest, hfree, rfl⟩ | ⟨m, rest, hrest, hown, rfl⟩
  · by_cases hik : i = k
    · subst hik
      rw [hrest] at hruns
      have hnew : m ∉ held := fun hm => Nat.lt_irrefl _ (hruns.1 m hm)
      refine ⟨m :: held, List.nodup_cons.mpr ⟨hnew, hnodup⟩, hhas.take, ?_⟩
      dsimp only
      rw [Function.update_self]
      exact hruns.2
    · refine ⟨held, hnodup, hhas.take_other hik hfree, ?_⟩
      dsimp only
      rw [Function.update_of_ne hik]
      exact hruns
  · by_cases hik : i = k
    · subst hik
      rw [hrest] at hruns
      obtain ⟨held₀, rfl, hruns⟩ := hruns
      obtain ⟨hnew, hnodup⟩ := List.nodup_cons.mp hnodup
      refine ⟨held₀, hnodup, hhas.give hnew, ?_⟩
      dsimp only
      rw [Function.update_self]
      exact hruns
    · refine ⟨held, hnodup, hhas.give_other hik hown, ?_⟩
      dsimp only
      rw [Function.update_of_ne hik]
      exact hruns

/-- In every reachable state the threads run in the order of the ranks. -/
theorem of_reachable (h : ∀ i, Runs rank [] (scripts i) [])
    (hreach : (threads scripts).Reachable System.anything s) : Ordered rank s := by
  refine hreach.invariant ?_ fun s k s' hs _ hstep => hs.step hstep
  rintro s rfl
  exact .start h

/-- A run of other threads. -/
theorem steps (h : Ordered rank s) (hsteps : (threads scripts).Steps System.anything s s') :
    Ordered rank s' :=
  hsteps.preserves (fun _ _ _ hs _ hstep => hs.step hstep) h

/-- A thread that has not finished takes a step or waits for a mutex. -/
theorem step_or_waits (h : Ordered rank s) {i : ι} (hi : s.rest i ≠ []) :
    (∃ s', s.step i = some s') ∨
      ∃ m rest k, s.rest i = .lock m :: rest ∧ s.owner m = some k := by
  cases hrest : s.rest i with
  | nil => exact absurd hrest hi
  | cons action rest =>
    unfold State.step
    rw [hrest]
    cases action with
    | lock m =>
      cases howner : s.owner m with
      | none => exact Or.inl ⟨_, if_pos howner⟩
      | some k => exact Or.inr ⟨m, rest, k, rfl, howner⟩
    | unlock m =>
      -- What a thread unlocks it has.
      obtain ⟨held, -, hhas, hruns⟩ := h i
      rw [hrest] at hruns
      obtain ⟨held₀, rfl, -⟩ := hruns
      exact Or.inl ⟨_, if_pos ((hhas m).mpr List.mem_cons_self)⟩

omit [DecidableEq ι] [DecidableEq M] in
/-- A thread that has a mutex waits only for mutexes of a higher rank. -/
theorem lt_of_owner (h : Ordered rank s) {m m' : M} {rest : List (Action M)}
    (hm : s.owner m = some k) (hrest : s.rest k = .lock m' :: rest) : rank m < rank m' := by
  obtain ⟨held, -, hhas, hruns⟩ := h k
  rw [hrest] at hruns
  exact hruns.1 m ((hhas m).mp hm)

omit [DecidableEq ι] [DecidableEq M] in
/-- A thread that has a mutex has something to do: it has to give the mutex up. -/
theorem rest_ne_nil (h : Ordered rank s) {m : M} (hm : s.owner m = some k) :
    s.rest k ≠ [] := by
  obtain ⟨held, -, hhas, hruns⟩ := h k
  intro hnil
  rw [hnil] at hruns
  obtain rfl : held = [] := hruns
  have hmem := (hhas m).mp hm
  cases hmem

end Ordered

/-! ## Every thread can go on -/

/-- A thread that has gone on in a run has taken a first step in it. -/
theorem exists_first_step (hsteps : (threads scripts).Steps System.anything s s')
    (hne : s'.rest k ≠ s.rest k) :
    ∃ s₁ s₂, (threads scripts).Steps System.anything s s₁ ∧ s₁.rest k = s.rest k ∧
      (∀ m, s.owner m = some k → s₁.owner m = some k) ∧ s₁.step k = some s₂ := by
  induction hsteps using Relation.ReflTransGen.head_induction_on with
  | refl => exact absurd rfl hne
  | @head s s₀ hfirst _ ih =>
    obtain ⟨i, hi, hstep⟩ := hfirst
    by_cases hik : k = i
    · subst hik
      exact ⟨s, s₀, .refl, rfl, fun _ hm => hm, hstep⟩
    · obtain ⟨hrest, howner⟩ := other_of_step hik hstep
      rw [← hrest] at hne
      obtain ⟨s₁, s₂, hsteps, hsame, hkeeps, hlast⟩ := ih hne
      exact ⟨s₁, s₂, .head ⟨i, hi, hstep⟩ hsteps, hsame.trans hrest,
        fun m hm => hkeeps m (howner m hm), hlast⟩

/-- A thread that has a mutex takes a step: it gives the mutex up, or has less to do until it
does. -/
theorem owner_of_step {m : M} (hm : s.owner m = some k) (hstep : s.step k = some s') :
    s'.owner m = none ∨ s'.owner m = some k := by
  rcases step_cases hstep with ⟨x, rest, -, hfree, rfl⟩ | ⟨x, rest, -, -, rfl⟩
  · have hne : m ≠ x := by
      rintro rfl
      rw [hfree] at hm
      cases hm
    exact Or.inr ((Function.update_of_ne hne _ _).trans hm)
  · dsimp only
    rw [Function.update_apply]
    split_ifs
    · exact Or.inl rfl
    · exact Or.inr hm

/-- A thread that has taken a step has gone on. -/
theorem goes_on_of_step (hstep : s.step i = some s') :
    ∃ s', (threads scripts).Steps System.anything s s' ∧ s'.rest i ≠ s.rest i :=
  ⟨s', .single ⟨i, trivial, hstep⟩, fun heq => Nat.lt_irrefl _ (heq ▸ length_of_step hstep)⟩

namespace Ordered

variable {scripts : ι → List (Action M)} {rank : M → ℕ} {s : State ι M} {i k : ι} {m : M}
  {rest : List (Action M)}

/-- A thread that waits for a mutex goes on when whoever has the mutex can always go on. The
induction is on what that thread has still to do. -/
theorem goes_on_of_owner (h : Ordered rank s) (hrest : s.rest i = .lock m :: rest)
    (hm : s.owner m = some k)
    (howner : ∀ s, Ordered rank s → s.owner m = some k →
      ∃ s', (threads scripts).Steps System.anything s s' ∧ s'.rest k ≠ s.rest k) :
    ∃ s', (threads scripts).Steps System.anything s s' ∧ s'.rest i ≠ s.rest i := by
  have hik : i ≠ k := by
    rintro rfl
    exact Nat.lt_irrefl _ (h.lt_of_owner hm hrest)
  induction hlength : (s.rest k).length using Nat.strong_induction_on generalizing s with
  | _ length ih =>
    obtain ⟨s', hsteps, hne⟩ := howner s h hm
    obtain ⟨s₁, s₂, hsteps₁, hsame, hkeeps, hstep⟩ := exists_first_step hsteps hne
    have hsteps₂ : (threads scripts).Steps System.anything s s₂ :=
      hsteps₁.tail ⟨k, trivial, hstep⟩
    by_cases hmoved : s₁.rest i = s.rest i
    · have hrest₂ : s₂.rest i = s.rest i := (other_of_step hik hstep).1.trans hmoved
      suffices hlast : ∃ s', (threads scripts).Steps System.anything s₂ s' ∧
          s'.rest i ≠ s₂.rest i by
        obtain ⟨s₃, hsteps₃, hne₃⟩ := hlast
        exact ⟨s₃, hsteps₂.trans hsteps₃, fun heq => hne₃ (heq.trans hrest₂.symm)⟩
      rcases owner_of_step (hkeeps m hm) hstep with hfree | hstill
      · have hlast : s₂.step i = some
            ⟨Function.update s₂.rest i rest, Function.update s₂.owner m (some i)⟩ := by
          unfold State.step
          rw [hrest₂, hrest]
          exact if_pos hfree
        exact goes_on_of_step hlast
      · refine ih _ ?_ (h.steps hsteps₂) (hrest₂.trans hrest) hstill rfl
        rw [← hlength, ← hsame]
        exact length_of_step hstep
    · exact ⟨s₁, hsteps₁, hmoved⟩

/-- In the order of ranks every thread that has not finished can go on, after others have. -/
theorem can_go_on (h : Ordered rank s) {bound : ℕ} (hbound : ∀ m, rank m < bound)
    (hi : s.rest i ≠ []) :
    ∃ s', (threads scripts).Steps System.anything s s' ∧ s'.rest i ≠ s.rest i := by
  -- The induction is on how far the rank of the mutex that the thread waits for is from the top.
  suffices hall : ∀ n s, Ordered rank s → ∀ i, s.rest i ≠ [] →
      (∀ m rest, s.rest i = .lock m :: rest → bound ≤ rank m + n) →
      ∃ s', (threads scripts).Steps System.anything s s' ∧ s'.rest i ≠ s.rest i from
    hall bound s h i hi fun m _ _ => Nat.le_add_left _ _
  intro n
  induction n with
  | zero =>
    intro s h i hi hrank
    rcases h.step_or_waits hi with ⟨s', hstep⟩ | ⟨m, rest, k, hrest, -⟩
    · exact goes_on_of_step hstep
    · exact absurd (hbound m) (Nat.not_lt.mpr (hrank m rest hrest))
  | succ n ih =>
    intro s h i hi hrank
    rcases h.step_or_waits hi with ⟨s', hstep⟩ | ⟨m, rest, k, hrest, hm⟩
    · exact goes_on_of_step hstep
    · have hle := hrank m rest hrest
      refine h.goes_on_of_owner hrest hm fun s hs hm => ?_
      refine ih s hs k (hs.rest_ne_nil hm) fun m' rest' hrest' => ?_
      have hlt := hs.lt_of_owner hm hrest'
      omega

end Ordered

/-! ## Runs of one thread -/

/-- A thread can run a part of its script when no other thread has a mutex. -/
theorem steps_solo {rank : M → ℕ} {a rest : List (Action M)} {held held' : List M} {s : State ι M}
    (hrest : s.rest i = a ++ rest) (hruns : Runs rank held a held') (hnodup : held.Nodup)
    (hhas : Has s.owner i held) (halone : ∀ m j, s.owner m = some j → j = i) :
    ∃ s', (threads scripts).Steps System.anything s s' ∧
      s'.rest = Function.update s.rest i rest ∧ Has s'.owner i held' ∧
      ∀ m j, s'.owner m = some j → j = i := by
  induction a generalizing held s with
  | nil =>
    obtain rfl : held = held' := hruns
    rw [List.nil_append] at hrest
    exact ⟨s, .refl, by rw [← hrest, Function.update_eq_self], hhas, halone⟩
  | cons action a ih =>
    cases action with
    | lock m =>
      obtain ⟨hbelow, hruns⟩ := hruns
      have hnew : m ∉ held := fun hm => Nat.lt_irrefl _ (hbelow m hm)
      have hfree : s.owner m = none := Option.eq_none_iff_forall_ne_some.mpr fun j hj =>
        hnew ((hhas m).mp (halone m j hj ▸ hj))
      have hstep : s.step i = some
          ⟨Function.update s.rest i (a ++ rest), Function.update s.owner m (some i)⟩ := by
        unfold State.step
        rw [hrest]
        exact if_pos hfree
      have halone₁ : ∀ x j, Function.update s.owner m (some i) x = some j → j = i := by
        intro x j hj
        rw [Function.update_apply] at hj
        split_ifs at hj
        · exact (Option.some.inj hj).symm
        · exact halone x j hj
      obtain ⟨s', hsteps, hrest', hhas', halone'⟩ := ih
        (s := ⟨Function.update s.rest i (a ++ rest), Function.update s.owner m (some i)⟩)
        (Function.update_self _ _ _) hruns (List.nodup_cons.mpr ⟨hnew, hnodup⟩) hhas.take halone₁
      refine ⟨s', .head ⟨i, trivial, hstep⟩ hsteps, ?_, hhas', halone'⟩
      rw [hrest', Function.update_idem]
    | unlock m =>
      obtain ⟨held₀, rfl, hruns⟩ := hruns
      obtain ⟨hnew, hnodup⟩ := List.nodup_cons.mp hnodup
      have hown : s.owner m = some i := (hhas m).mpr List.mem_cons_self
      have hstep : s.step i = some
          ⟨Function.update s.rest i (a ++ rest), Function.update s.owner m none⟩ := by
        unfold State.step
        rw [hrest]
        exact if_pos hown
      have halone₁ : ∀ x j, Function.update s.owner m none x = some j → j = i := by
        intro x j hj
        rw [Function.update_apply] at hj
        split_ifs at hj
        exact halone x j hj
      obtain ⟨s', hsteps, hrest', hhas', halone'⟩ := ih
        (s := ⟨Function.update s.rest i (a ++ rest), Function.update s.owner m none⟩)
        (Function.update_self _ _ _) hruns hnodup (hhas.give hnew) halone₁
      refine ⟨s', .head ⟨i, trivial, hstep⟩ hsteps, ?_, hhas', halone'⟩
      rw [hrest', Function.update_idem]

end Mutexes
