import SimpleDfs.Base.CondVar
import SimpleDfs.Base.Count
import SimpleDfs.Base.System

/-!
# The queue between threads

`fifo` of `rpc/fifo.h`: a list with a limit, a mutex and two condition variables. `enq` waits while
the queue is full, or returns `false` at once when it is not to block; `deq` waits while the queue
is empty. Both are loops. One pass of a loop runs under `m_` and is one step here; it ends with
the return of the function or with a wait, and a thread that waits also may wake up by itself.

Each pass changes the queue and who waits, and says what the function returns if it does (`enq`,
`deq`). `fifo_sound` is about any number of threads: the elements leave in the order in which they
entered, none is lost and none twice, and no wake-up is lost.
-/

namespace SimpleDfs.Rpc

/-- A call of `enq`. -/
structure Enqueuer (ι T : Type) where
  /-- The thread. -/
  thread : ι
  /-- The element. -/
  e : T
  /-- Whether the call waits while the queue is full. -/
  blocking : Bool
  deriving DecidableEq, Repr

/-- The state of `fifo`, with the threads that are in its functions and what has happened. -/
structure Fifo (ι T : Type) where
  /-- The queue. -/
  q_ : List T
  /-- The most elements that the queue may have, or 0 for no limit. -/
  max_ : ℕ
  /-- The threads that wait in `deq`. -/
  non_empty_c_ : List ι
  /-- The calls of `enq` that wait. -/
  has_space_c_ : List (Enqueuer ι T)
  /-- The threads in `deq` that are about to look at the queue. -/
  deqs : List ι
  /-- The calls of `enq` that are about to look at the queue. -/
  enqs : List (Enqueuer ι T)
  /-- The elements that have entered the queue, in this order. -/
  entered : List T
  /-- The elements that have left the queue, in this order. -/
  left : List T
  deriving DecidableEq, Repr

namespace Fifo

variable {ι T : Type}

/-- The constructor. -/
def construct (limit : ℕ) : Fifo ι T := ⟨[], limit, [], [], [], [], [], []⟩

/-- A thread calls `enq`. -/
def callEnq (s : Fifo ι T) (c : Enqueuer ι T) : Fifo ι T := { s with enqs := c :: s.enqs }

/-- A thread calls `deq`. -/
def callDeq (s : Fifo ι T) (t : ι) : Fifo ι T := { s with deqs := t :: s.deqs }

/-- There is room for an element. -/
def HasSpace (s : Fifo ι T) : Prop := s.max_ = 0 ∨ s.q_.length < s.max_

instance (s : Fifo ι T) : Decidable s.HasSpace := inferInstanceAs (Decidable (_ ∨ _))

variable [DecidableEq ι] [DecidableEq T]

/-- A pass of the loop of `fifo::enq`, with the thread that its signal wakes and what the function
returns, if it does. -/
def enq (s : Fifo ι T) (c : Enqueuer ι T) (woken : Option ι) : Option (Fifo ι T × Option Bool) :=
  if c ∈ s.enqs then
    let s := { s with enqs := s.enqs.erase c }
    if s.HasSpace then
      (CondVar.signal s.non_empty_c_ woken).map fun waiting =>
        ({ s with
          q_ := s.q_ ++ [c.e]
          entered := s.entered ++ [c.e]
          non_empty_c_ := waiting
          deqs := woken.toList ++ s.deqs }, some true)
    else if c.blocking then some ({ s with has_space_c_ := c :: s.has_space_c_ }, none)
    else some (s, some false)
  else none

/-- A pass of the loop of `fifo::deq`, with the call that its signal wakes and the element that the
function returns, if it does. -/
def deq (s : Fifo ι T) (t : ι) (woken : Option (Enqueuer ι T)) :
    Option (Fifo ι T × Option T) :=
  if t ∈ s.deqs then
    let s := { s with deqs := s.deqs.erase t }
    match s.q_ with
    | [] => some ({ s with non_empty_c_ := t :: s.non_empty_c_ }, none)
    | e :: q =>
      let s := { s with q_ := q, left := s.left ++ [e] }
      if s.max_ ≠ 0 ∧ s.q_.length < s.max_ then
        (CondVar.signal s.has_space_c_ woken).map fun waiting =>
          ({ s with has_space_c_ := waiting, enqs := woken.toList ++ s.enqs }, some e)
      else some (s, some e)
  else none

/-- A thread in `deq` wakes up by itself. -/
def wakeDeq (s : Fifo ι T) (t : ι) : Option (Fifo ι T) :=
  if t ∈ s.non_empty_c_ then
    some { s with non_empty_c_ := s.non_empty_c_.erase t, deqs := t :: s.deqs }
  else none

/-- A call of `enq` wakes up by itself. -/
def wakeEnq (s : Fifo ι T) (c : Enqueuer ι T) : Option (Fifo ι T) :=
  if c ∈ s.has_space_c_ then
    some { s with has_space_c_ := s.has_space_c_.erase c, enqs := c :: s.enqs }
  else none

end Fifo

/-- What a thread can do. -/
inductive FifoEvent (ι T : Type) where
  /-- It calls `enq`. -/
  | callEnq (c : Enqueuer ι T)
  /-- It calls `deq`. -/
  | callDeq (t : ι)
  /-- A pass of the loop of `enq`. -/
  | enq (c : Enqueuer ι T) (woken : Option ι)
  /-- A pass of the loop of `deq`. -/
  | deq (t : ι) (woken : Option (Enqueuer ι T))
  /-- It wakes up in `deq`. -/
  | wakeDeq (t : ι)
  /-- It wakes up in `enq`. -/
  | wakeEnq (c : Enqueuer ι T)
  deriving DecidableEq, Repr

section Fifo

variable {ι T : Type} [DecidableEq ι] [DecidableEq T]

/-- The state after an event. -/
def Fifo.step (s : Fifo ι T) : FifoEvent ι T → Option (Fifo ι T)
  | .callEnq c => some (s.callEnq c)
  | .callDeq t => some (s.callDeq t)
  | .enq c woken => (s.enq c woken).map Prod.fst
  | .deq t woken => (s.deq t woken).map Prod.fst
  | .wakeDeq t => s.wakeDeq t
  | .wakeEnq c => s.wakeEnq c

/-- A queue with any limit and any threads. -/
def fifoSystem (ι T : Type) [DecidableEq ι] [DecidableEq T] :
    System (Fifo ι T) (FifoEvent ι T) where
  init s := ∃ limit, s = .construct limit
  step := Fifo.step

namespace Fifo

/-! ## What a pass does -/

variable {s s' : Fifo ι T} {c : Enqueuer ι T} {woken : Option (Enqueuer ι T)} {ret : Option Bool}
  {t : ι}

/-- A pass of `enq` adds the element, or waits, or gives up. -/
theorem enq_cases {woken : Option ι} (h : s.enq c woken = some (s', ret)) : c ∈ s.enqs ∧
      ((ret = some true ∧ s.HasSpace ∧ ∃ waiting,
        CondVar.signal s.non_empty_c_ woken = some waiting ∧
        s' = { s with
          enqs := s.enqs.erase c
          q_ := s.q_ ++ [c.e]
          entered := s.entered ++ [c.e]
          non_empty_c_ := waiting
          deqs := woken.toList ++ s.deqs }) ∨
      (ret = none ∧ ¬ s.HasSpace ∧ c.blocking = true ∧
        s' = { s with enqs := s.enqs.erase c, has_space_c_ := c :: s.has_space_c_ }) ∨
      ret = some false ∧ ¬ s.HasSpace ∧ c.blocking = false ∧
        s' = { s with enqs := s.enqs.erase c }) := by
  unfold enq at h
  dsimp only at h
  split_ifs at h with hmem hspace hblocking
  · obtain ⟨waiting, hsignal, heq⟩ := Option.map_eq_some_iff.mp h
    obtain ⟨rfl, rfl⟩ := Prod.mk.inj heq
    exact ⟨hmem, Or.inl ⟨rfl, hspace, waiting, hsignal, rfl⟩⟩
  · obtain ⟨rfl, rfl⟩ := Prod.mk.inj (Option.some.inj h)
    exact ⟨hmem, Or.inr (Or.inl ⟨rfl, hspace, hblocking, rfl⟩)⟩
  · obtain ⟨rfl, rfl⟩ := Prod.mk.inj (Option.some.inj h)
    exact ⟨hmem, Or.inr (Or.inr ⟨rfl, hspace, Bool.eq_false_iff.mpr hblocking, rfl⟩)⟩

/-- A pass of `deq` waits, or takes the first element. With a limit, it then signals when there is
room. -/
theorem deq_cases {ret : Option T} (h : s.deq t woken = some (s', ret)) : t ∈ s.deqs ∧
      ((ret = none ∧ s.q_ = [] ∧
        s' = { s with deqs := s.deqs.erase t, non_empty_c_ := t :: s.non_empty_c_ }) ∨
      ∃ e q, ret = some e ∧ s.q_ = e :: q ∧
        ((s.max_ ≠ 0 ∧ q.length < s.max_ ∧ ∃ waiting,
          CondVar.signal s.has_space_c_ woken = some waiting ∧
          s' = { s with
            deqs := s.deqs.erase t
            q_ := q
            left := s.left ++ [e]
            has_space_c_ := waiting
            enqs := woken.toList ++ s.enqs }) ∨
        ¬ (s.max_ ≠ 0 ∧ q.length < s.max_) ∧
          s' = { s with deqs := s.deqs.erase t, q_ := q, left := s.left ++ [e] })) := by
  unfold deq at h
  split_ifs at h with hmem
  refine ⟨hmem, ?_⟩
  dsimp only at h
  cases hq : s.q_ with
  | nil =>
    rw [hq] at h
    obtain ⟨rfl, rfl⟩ := Prod.mk.inj (Option.some.inj h)
    exact Or.inl ⟨rfl, rfl, rfl⟩
  | cons e q =>
    rw [hq] at h
    dsimp only at h
    refine Or.inr ⟨e, q, ?_⟩
    split_ifs at h with hroom
    · obtain ⟨waiting, hsignal, heq⟩ := Option.map_eq_some_iff.mp h
      obtain ⟨rfl, rfl⟩ := Prod.mk.inj heq
      exact ⟨rfl, rfl, Or.inl ⟨hroom.1, hroom.2, waiting, hsignal, rfl⟩⟩
    · obtain ⟨rfl, rfl⟩ := Prod.mk.inj (Option.some.inj h)
      exact ⟨rfl, rfl, Or.inr ⟨hroom, rfl⟩⟩

/-- The calls of `enq` that have not returned. -/
def callers (s : Fifo ι T) : List (Enqueuer ι T) := s.enqs ++ s.has_space_c_

/-- The threads in `deq`. -/
def takers (s : Fifo ι T) : List ι := s.deqs ++ s.non_empty_c_

/-- A signal moves a thread from those that wait to those that are about to look. -/
theorem perm_signal {α : Type} [DecidableEq α] {waiting waiting' looking : List α}
    {woken : Option α} (h : CondVar.signal waiting woken = some waiting') :
    ((woken.toList ++ looking) ++ waiting').Perm (looking ++ waiting) := by
  rw [List.append_assoc]
  exact List.perm_append_comm_assoc .. |>.trans ((CondVar.signal_perm h).append_left looking)

/-- A pass of `enq` either returns or leaves the calls as they are. -/
theorem enq_perm {woken : Option ι} (h : s.enq c woken = some (s', ret)) : s'.takers.Perm s.takers ∧
      if ret = none then s'.callers.Perm s.callers else (c :: s'.callers).Perm s.callers := by
  obtain ⟨hmem, hcases⟩ := enq_cases h
  have hcall : (c :: s.enqs.erase c).Perm s.enqs := (List.perm_cons_erase hmem).symm
  rcases hcases with ⟨rfl, -, waiting, hsignal, rfl⟩ | ⟨rfl, -, -, rfl⟩ | ⟨rfl, -, -, rfl⟩
  · exact ⟨perm_signal hsignal, hcall.append_right _⟩
  · refine ⟨List.Perm.refl _, ?_⟩
    show (s.enqs.erase c ++ c :: s.has_space_c_).Perm (s.enqs ++ s.has_space_c_)
    exact List.perm_middle.trans (hcall.append_right _)
  · exact ⟨List.Perm.refl _, hcall.append_right _⟩

/-- A pass of `deq` either returns or leaves the threads in `deq` as they are. -/
theorem deq_perm {ret : Option T} (h : s.deq t woken = some (s', ret)) : s'.callers.Perm s.callers ∧
      if ret = none then s'.takers.Perm s.takers else (t :: s'.takers).Perm s.takers := by
  obtain ⟨hmem, hcases⟩ := deq_cases h
  have hthread : (t :: s.deqs.erase t).Perm s.deqs := (List.perm_cons_erase hmem).symm
  rcases hcases with ⟨rfl, -, rfl⟩ | ⟨e, q, rfl, -, ⟨-, -, waiting, hsignal, rfl⟩ | ⟨-, rfl⟩⟩
  · refine ⟨List.Perm.refl _, ?_⟩
    show (s.deqs.erase t ++ t :: s.non_empty_c_).Perm (s.deqs ++ s.non_empty_c_)
    exact List.perm_middle.trans (hthread.append_right _)
  · exact ⟨perm_signal hsignal, hthread.append_right _⟩
  · exact ⟨List.Perm.refl _, hthread.append_right _⟩

/-- What a pass of `enq` adds. -/
theorem enq_history {woken : Option ι} (h : s.enq c woken = some (s', ret)) :
    s'.max_ = s.max_ ∧ s'.left = s.left ∧
      s'.entered = if ret = some true then s.entered ++ [c.e] else s.entered := by
  obtain ⟨-, ⟨rfl, -, waiting, -, rfl⟩ | ⟨rfl, -, -, rfl⟩ | ⟨rfl, -, -, rfl⟩⟩ := enq_cases h
  · exact ⟨rfl, rfl, rfl⟩
  · exact ⟨rfl, rfl, rfl⟩
  · exact ⟨rfl, rfl, rfl⟩

/-- What a pass of `deq` takes. -/
theorem deq_history {ret : Option T} (h : s.deq t woken = some (s', ret)) :
    s'.max_ = s.max_ ∧ s'.entered = s.entered ∧
      s'.left = s.left ++ ret.toList := by
  obtain ⟨-, ⟨rfl, -, rfl⟩ | ⟨e, q, rfl, -, ⟨-, -, waiting, -, rfl⟩ | ⟨-, rfl⟩⟩⟩ := deq_cases h
  · exact ⟨rfl, rfl, (List.append_nil _).symm⟩
  · exact ⟨rfl, rfl, rfl⟩
  · exact ⟨rfl, rfl, rfl⟩

/-- A call of `enq` that is about to look at the queue can go on. -/
theorem exists_enq (h : c ∈ s.enqs) :
    ∃ woken result, s.enq c woken = some result := by
  obtain ⟨woken, waiting, hsignal⟩ := CondVar.exists_signal s.non_empty_c_
  refine ⟨woken, ?_⟩
  unfold enq
  dsimp only
  rw [if_pos h, hsignal, Option.map_some]
  split_ifs <;> exact ⟨_, rfl⟩

/-- A thread in `deq` that is about to look at the queue can go on. -/
theorem exists_deq (h : t ∈ s.deqs) : ∃ woken result, s.deq t woken = some result := by
  obtain ⟨woken, waiting, hsignal⟩ := CondVar.exists_signal s.has_space_c_
  refine ⟨woken, ?_⟩
  unfold deq
  dsimp only
  rw [if_pos h]
  cases s.q_ with
  | nil => exact ⟨_, rfl⟩
  | cons e q =>
    dsimp only
    rw [hsignal, Option.map_some]
    split_ifs <;> exact ⟨_, rfl⟩

/-! ## The invariant -/

/-- The calls of `enq` that wait when the queue is full and are about to look at it. -/
def awake (s : Fifo ι T) : ℕ := s.enqs.countP (·.blocking)

/-- What holds between any two steps. -/
structure Inv (s : Fifo ι T) : Prop where
  /-- What has entered has left or is in the queue, in the same order. -/
  order : s.entered = s.left ++ s.q_
  /-- The limit is kept. -/
  limit : s.max_ ≠ 0 → s.q_.length ≤ s.max_
  /-- Only a call that blocks waits, and only for a queue with a limit. -/
  blocking : ∀ c ∈ s.has_space_c_, c.blocking = true ∧ s.max_ ≠ 0
  /-- The threads in `deq`. -/
  consumers : CondVar.Served s.non_empty_c_ s.deqs.length s.q_.length
  /-- The calls of `enq`. -/
  producers : CondVar.Served s.has_space_c_ s.awake (s.max_ - s.q_.length)

omit [DecidableEq ι] [DecidableEq T] in
/-- A new queue. -/
theorem inv_construct (limit : ℕ) : (construct limit : Fifo ι T).Inv where
  order := rfl
  limit _ := Nat.zero_le _
  blocking := nofun
  consumers hne := absurd rfl hne
  producers hne := absurd rfl hne

/-- The calls that block, without one of all calls. -/
theorem countP_erase_blocking (h : c ∈ s.enqs) :
    (s.enqs.erase c).countP (·.blocking) + (if c.blocking then 1 else 0) = s.awake :=
  countP_erase_add h

namespace Inv

/-- A pass of `enq`. -/
theorem enq (h : s.Inv) {c : Enqueuer ι T} {woken : Option ι} {ret : Option Bool}
    (hstep : s.enq c woken = some (s', ret)) : s'.Inv := by
  obtain ⟨hmem, hcases⟩ := enq_cases hstep
  have hcount := countP_erase_blocking hmem
  rcases hcases with ⟨-, hspace, waiting, hsignal, rfl⟩ | ⟨-, hspace, hblocking, rfl⟩ |
    ⟨-, hspace, hblocking, rfl⟩
  · -- The element takes one place, and the call that took it looks no more.
    have hlength : (s.q_ ++ [c.e]).length = s.q_.length + 1 := List.length_append
    refine ⟨?_, fun hmax => ?_, h.blocking, ?_, h.producers.mono fun hle => ?_⟩
    · show s.entered ++ [c.e] = s.left ++ (s.q_ ++ [c.e])
      rw [h.order, List.append_assoc]
    · dsimp only at hmax ⊢
      have := hspace.resolve_left hmax
      omega
    · show CondVar.Served waiting (woken.toList ++ s.deqs).length (s.q_ ++ [c.e]).length
      rw [hlength, List.length_append]
      exact h.consumers.signal hsignal
    · show s.max_ - (s.q_ ++ [c.e]).length ≤ (s.enqs.erase c).countP (·.blocking)
      split_ifs at hcount <;> omega
  · -- A call waits only when there is no room.
    have hfull : s.max_ ≠ 0 ∧ s.max_ ≤ s.q_.length := by
      unfold HasSpace at hspace
      omega
    refine ⟨h.order, h.limit, fun c' hc' => ?_, h.consumers, ?_⟩
    · rcases List.mem_cons.mp hc' with rfl | hc'
      · exact ⟨hblocking, hfull.1⟩
      · exact h.blocking c' hc'
    · show CondVar.Served _ _ (s.max_ - s.q_.length)
      rw [Nat.sub_eq_zero_of_le hfull.2]
      exact .of_none _ _
  · refine { h with producers := h.producers.mono fun hle => ?_ }
    show s.max_ - s.q_.length ≤ (s.enqs.erase c).countP (·.blocking)
    rw [hblocking, if_neg Bool.false_ne_true] at hcount
    omega

/-- The call that a signal has woken blocks. -/
theorem awake_signal (h : s.Inv) {woken : Option (Enqueuer ι T)} {waiting : List (Enqueuer ι T)}
    (hsignal : CondVar.signal s.has_space_c_ woken = some waiting) :
    (woken.toList ++ s.enqs).countP (·.blocking) = woken.toList.length + s.awake := by
  obtain ⟨rfl, -, -⟩ | ⟨c, hc, rfl, -⟩ := CondVar.signal_cases hsignal
  · exact (Nat.zero_add _).symm
  · rw [Option.toList_some, List.singleton_append, List.countP_cons_of_pos (h.blocking c hc).1]
    exact Nat.add_comm _ _

/-- A pass of `deq`. -/
theorem deq (h : s.Inv) {t : ι} {woken : Option (Enqueuer ι T)} {ret : Option T}
    (hstep : s.deq t woken = some (s', ret)) : s'.Inv := by
  obtain ⟨hmem, hcases⟩ := deq_cases hstep
  have hdeqs : (s.deqs.erase t).length + 1 = s.deqs.length := by
    rw [List.length_erase_of_mem hmem]
    have := List.length_pos_of_mem hmem
    omega
  rcases hcases with ⟨-, hq, rfl⟩ | ⟨e, q, -, hq, hcases⟩
  · refine { h with consumers := ?_ }
    -- A thread waits only when there is nothing.
    show CondVar.Served _ _ s.q_.length
    rw [hq]
    exact .of_none _ _
  · have hlength : s.q_.length = q.length + 1 := by rw [hq, List.length_cons]
    have horder : s.entered = (s.left ++ [e]) ++ q := by
      rw [h.order, hq, List.append_assoc, List.singleton_append]
    have hlimit : s.max_ ≠ 0 → q.length ≤ s.max_ := fun hmax => by
      have := h.limit hmax
      omega
    have hconsumers : CondVar.Served s.non_empty_c_ (s.deqs.erase t).length q.length :=
      h.consumers.mono fun hle => by omega
    rcases hcases with ⟨hmax, hroom, waiting, hsignal, rfl⟩ | ⟨hfull, rfl⟩
    · have hwaited := (CondVar.signal_perm hsignal).subset
      refine ⟨horder, hlimit, fun c hc => h.blocking c (hwaited (List.mem_append_right _ hc)),
        hconsumers, ?_⟩
      show CondVar.Served waiting ((woken.toList ++ s.enqs).countP (·.blocking)) (s.max_ - q.length)
      rw [h.awake_signal hsignal, show s.max_ - q.length = s.max_ - s.q_.length + 1 by
        have := h.limit hmax
        omega]
      exact h.producers.signal hsignal
    · -- Without a limit nobody waits for room.
      refine ⟨horder, hlimit, h.blocking, hconsumers, fun hne => ?_⟩
      obtain ⟨c, hc⟩ := List.exists_mem_of_ne_nil _ hne
      have := h.limit (h.blocking c hc).2
      exact absurd ⟨(h.blocking c hc).2, by omega⟩ hfull

omit [DecidableEq ι] [DecidableEq T] in
/-- A thread calls `enq`. -/
theorem callEnq (h : s.Inv) (c : Enqueuer ι T) : (s.callEnq c).Inv := by
  refine { h with producers := h.producers.mono fun hle => ?_ }
  show s.max_ - s.q_.length ≤ (c :: s.enqs).countP (·.blocking)
  exact hle.trans (List.sublist_cons_self c s.enqs).countP_le

omit [DecidableEq ι] [DecidableEq T] in
/-- A thread calls `deq`. -/
theorem callDeq (h : s.Inv) (t : ι) : (s.callDeq t).Inv :=
  { h with consumers := h.consumers.mono fun hle => Nat.le_succ_of_le hle }

/-- A step. -/
theorem step (h : s.Inv) {event : FifoEvent ι T} (hstep : s.step event = some s') : s'.Inv := by
  cases event with
  | callEnq c =>
    obtain rfl := Option.some.inj hstep
    exact h.callEnq c
  | callDeq t =>
    obtain rfl := Option.some.inj hstep
    exact h.callDeq t
  | enq c woken =>
    obtain ⟨⟨s₁, ret⟩, hpass, rfl⟩ := Option.map_eq_some_iff.mp hstep
    exact h.enq hpass
  | deq t woken =>
    obtain ⟨⟨s₁, ret⟩, hpass, rfl⟩ := Option.map_eq_some_iff.mp hstep
    exact h.deq hpass
  | wakeDeq t =>
    simp only [Fifo.step, Fifo.wakeDeq] at hstep
    split_ifs at hstep with hmem
    obtain rfl := Option.some.inj hstep
    exact { h with consumers := h.consumers.wake (List.ne_nil_of_mem hmem) }
  | wakeEnq c =>
    simp only [Fifo.step, Fifo.wakeEnq] at hstep
    split_ifs at hstep with hmem
    obtain rfl := Option.some.inj hstep
    refine ⟨h.order, h.limit, fun c' hc' => h.blocking c' (List.mem_of_mem_erase hc'), h.consumers,
      ?_⟩
    have hawake : (c :: s.enqs).countP (·.blocking) = s.awake + 1 :=
      List.countP_cons_of_pos (h.blocking c hmem).1
    show CondVar.Served _ ((c :: s.enqs).countP (·.blocking)) _
    rw [hawake]
    exact h.producers.wake (List.ne_nil_of_mem hmem)

end Inv

end Fifo

/-- In every reachable state of a queue and any threads that use it, what has entered has left or is
in the queue, all in the same order, and the limit is kept. While threads wait for an element,
there are as many others about to look at the queue as there are elements; while calls wait for
room, there are as many others as there is room. So the threads do not all wait in both ways. -/
theorem fifo_sound {s : Fifo ι T} (h : (fifoSystem ι T).Reachable System.anything s) :
    s.entered = s.left ++ s.q_ ∧ (s.max_ ≠ 0 → s.q_.length ≤ s.max_) ∧
      (s.non_empty_c_ ≠ [] → s.q_.length ≤ s.deqs.length) ∧
      (s.has_space_c_ ≠ [] → s.max_ - s.q_.length ≤ s.awake) ∧
      (s.non_empty_c_ ≠ [] → s.has_space_c_ ≠ [] → s.deqs ≠ [] ∨ s.enqs ≠ []) := by
  have hinv : s.Inv := by
    refine System.Reachable.invariant ?_ (fun _ _ _ hs _ hstep => hs.step hstep) h
    rintro _ ⟨limit, rfl⟩
    exact Fifo.inv_construct limit
  refine ⟨hinv.order, hinv.limit, hinv.consumers, hinv.producers, fun hdeq henq => ?_⟩
  by_contra hasleep
  rw [not_or, not_not, not_not] at hasleep
  -- Nobody is awake, so there is neither an element nor room for one.
  have hempty := hinv.consumers hdeq
  have hfull := hinv.producers henq
  obtain ⟨c, hc⟩ := List.exists_mem_of_ne_nil _ henq
  have hmax := (hinv.blocking c hc).2
  rw [hasleep.1, List.length_nil] at hempty
  rw [Fifo.awake, hasleep.2, List.countP_nil] at hfull
  omega

/-- Two threads wait for an element when one enters. One of them has been woken, and the other still
waits. -/
theorem fifo_sound_two_consumers : ∃ s : Fifo ℕ ℕ, (fifoSystem ℕ ℕ).Reachable System.anything s ∧
    s.q_ = [7] ∧ s.non_empty_c_ = [2] ∧ s.q_.length ≤ s.deqs.length := by
  have hmap : ((fifoSystem ℕ ℕ).exec (.construct 1) [.callDeq 1, .deq 1 none, .callDeq 2,
      .deq 2 none, .callEnq ⟨3, 7, true⟩, .enq ⟨3, 7, true⟩ (some 1)]).map
      (fun s => (s.q_, s.non_empty_c_)) = some ([7], [2]) := by decide
  obtain ⟨s, hexec, hval⟩ := Option.map_eq_some_iff.mp hmap
  obtain ⟨hq, hwaiting⟩ := Prod.mk.inj hval
  have hreachable := System.Reachable.of_exec hexec ⟨1, rfl⟩
  exact ⟨s, hreachable, hq, hwaiting, (fifo_sound hreachable).2.2.1 (by rw [hwaiting]; simp)⟩

end Fifo

end SimpleDfs.Rpc
