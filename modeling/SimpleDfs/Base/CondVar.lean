import Mathlib.Data.List.Basic
import Mathlib.Tactic.SplitIfs

/-!
# Condition variables

A condition variable is the list of the threads that wait for it. A signal wakes one of them, if
there is one. Which one is left open, so that the woken thread is an argument of `signal`. A thread
that was woken has to look again at what it waits for, and another thread may come before it.

In the usual pattern threads take something of which there is a certain number. A thread that finds
nothing waits, and whoever adds one more signals. Then nobody waits in vain (`Served`): while
threads wait, those that were woken and have not looked yet are enough for what there is.
-/

namespace CondVar

variable {ι : Type*} {waiting waiting' : List ι}

/-- A signal wakes the thread `t`, or nobody when nobody waits. -/
def signal [DecidableEq ι] (waiting : List ι) : Option ι → Option (List ι)
  | none => if waiting.isEmpty then some waiting else none
  | some t => if t ∈ waiting then some (waiting.erase t) else none

/-- What a signal does. -/
theorem signal_cases [DecidableEq ι] {woken : Option ι} (h : signal waiting woken = some waiting') :
    woken = none ∧ waiting = [] ∧ waiting' = [] ∨
      ∃ t ∈ waiting, woken = some t ∧ waiting' = waiting.erase t := by
  cases woken with
  | none =>
    simp only [signal] at h
    split_ifs at h with hempty
    obtain rfl := Option.some.inj h
    exact Or.inl ⟨rfl, List.isEmpty_iff.mp hempty, List.isEmpty_iff.mp hempty⟩
  | some t =>
    simp only [signal] at h
    split_ifs at h with hmem
    exact Or.inr ⟨t, hmem, rfl, (Option.some.inj h).symm⟩

/-- The threads that waited are the woken one and those that still wait. -/
theorem signal_perm [DecidableEq ι] {woken : Option ι} (h : signal waiting woken = some waiting') :
    (woken.toList ++ waiting').Perm waiting := by
  obtain ⟨rfl, rfl, rfl⟩ | ⟨t, ht, rfl, rfl⟩ := signal_cases h
  · exact List.Perm.nil
  · exact (List.perm_cons_erase ht).symm

/-- A signal is possible, whoever waits. -/
theorem exists_signal [DecidableEq ι] (waiting : List ι) :
    ∃ woken waiting', signal waiting woken = some waiting' := by
  cases waiting with
  | nil => exact ⟨none, [], rfl⟩
  | cons t waiting => exact ⟨some t, _, if_pos List.mem_cons_self⟩

/-- While threads wait, `woken` threads are enough for the `avail` things that there are. -/
def Served (waiting : List ι) (woken avail : ℕ) : Prop := waiting ≠ [] → avail ≤ woken

/-- There is one more, and a signal. -/
theorem Served.signal [DecidableEq ι] {woken avail : ℕ} {t : Option ι}
    (h : Served waiting woken avail) (hsignal : CondVar.signal waiting t = some waiting') :
    Served waiting' (t.toList.length + woken) (avail + 1) := by
  intro hne
  obtain ⟨rfl, rfl, rfl⟩ | ⟨t, ht, rfl, -⟩ := signal_cases hsignal
  · exact absurd rfl hne
  · have := h (List.ne_nil_of_mem ht)
    rw [Option.toList_some, List.length_singleton]
    omega

/-- There is nothing, and any threads wait. -/
theorem Served.of_none (waiting : List ι) (woken : ℕ) : Served waiting woken 0 :=
  fun _ => Nat.zero_le woken

/-- A thread stops waiting by itself, and will look. -/
theorem Served.wake {woken avail : ℕ} (h : Served waiting woken avail) (hne : waiting ≠ []) :
    Served waiting' (woken + 1) avail :=
  fun _ => Nat.le_succ_of_le (h hne)

/-- Fewer things, for as many threads. -/
theorem Served.mono {waiting : List ι} {woken woken' avail avail' : ℕ}
    (h : Served waiting woken avail) (hle : avail ≤ woken → avail' ≤ woken') :
    Served waiting woken' avail' := fun hne => hle (h hne)

end CondVar
