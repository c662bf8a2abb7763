import Mathlib.Data.List.Nodup
import Mathlib.Data.List.Perm.Subperm
import SimpleDfs.Rpc.Fifo

/-!
# The pool of threads

`ThrPool` of `rpc/thr_pool.cc`: threads that take jobs from a queue and run them, as an RPC server
has for its requests. A job without a function tells the thread that takes it to exit. The
destructor adds one such job for each thread, and then joins the threads. No other thread may use
the pool from then on, nor wait to add a job.

A thread of the pool is in `takeJob`, or runs a job, or has exited. `pool_drains` says that each job
that was accepted is in the queue, or running, or finished, and that all of them are finished when
the destructor returns. `destructor_returns` says that the destructor does return, once the jobs do:
each step that is not a spurious wake-up lowers a number, and only at the end there is none.
-/

namespace SimpleDfs.Rpc

/-- A thread that uses the queue of the pool. -/
inductive PoolThread where
  /-- A thread of the pool. -/
  | worker (i : ℕ)
  /-- A thread that adds a job. -/
  | caller (k : ℕ)
  /-- The thread that destroys the pool. -/
  | destructor
  deriving DecidableEq, Repr

/-- Where the destructor is. -/
inductive DestructorPc where
  /-- It was not called. -/
  | idle
  /-- It has added `n` jobs without a function, and adds the next one. -/
  | adds (n : ℕ)
  /-- It has joined the threads below `i`. It returns when there is no other one. -/
  | joins (i : ℕ)
  deriving DecidableEq, Repr

/-- The state of `ThrPool`, with its threads. A job is `none` when it has no function. -/
structure ThrPool (J : Type) where
  /-- The number of threads. -/
  nthreads_ : ℕ
  /-- Whether `addJob` waits while the queue is full. -/
  blockadd_ : Bool
  /-- The queue. -/
  jobq_ : Fifo PoolThread (Option J)
  /-- The jobs that are running, each with its thread. -/
  running : List (ℕ × J)
  /-- The threads that have exited. -/
  exited : List ℕ
  /-- The jobs that have returned. -/
  finished : List J
  /-- The destructor. -/
  destructor : DestructorPc
  deriving DecidableEq, Repr

/-- What a thread can do. -/
inductive PoolEvent (J : Type) where
  /-- A thread calls `addJob`. -/
  | addJob (k : ℕ) (j : J)
  /-- A pass of the loop of `enq`. -/
  | enq (c : Enqueuer PoolThread (Option J)) (woken : Option PoolThread)
  /-- A pass of the loop of `deq`, in `takeJob`. -/
  | takeJob (i : ℕ) (woken : Option (Enqueuer PoolThread (Option J)))
  /-- A job returns. -/
  | returns (i : ℕ) (j : J)
  /-- The destructor is called. -/
  | destroy
  /-- The destructor joins a thread. -/
  | join
  /-- A thread wakes up in `deq`. -/
  | wakeDeq (t : PoolThread)
  /-- A thread wakes up in `enq`. -/
  | wakeEnq (c : Enqueuer PoolThread (Option J))
  deriving DecidableEq, Repr

/-- The event is not a wake-up for no reason. -/
def PoolEvent.Productive {J : Type} : PoolEvent J → Prop
  | .wakeDeq _ | .wakeEnq _ => False
  | .addJob .. | .enq .. | .takeJob .. | .returns .. | .destroy | .join => True

/-- The job that tells a thread to exit, as the destructor adds it. -/
def poisonPill (J : Type) : Enqueuer PoolThread (Option J) := ⟨.destructor, none, true⟩

namespace ThrPool

variable {J : Type}

/-- The constructor. The threads call `takeJob`. -/
def construct (sz : ℕ) (blocking : Bool) : ThrPool J :=
  ⟨sz, blocking, { Fifo.construct (100 * sz) with deqs := (List.range sz).map .worker }, [], [], [],
    .idle⟩

/-- `ThrPool::addJob` calls `enq`. -/
def addJob (p : ThrPool J) (k : ℕ) (j : J) : Option (ThrPool J) :=
  if p.destructor = .idle then
    some { p with jobq_ := p.jobq_.callEnq ⟨.caller k, some j, p.blockadd_⟩ }
  else none

/-- The first loop of the destructor, after `n` passes. -/
def addPill (p : ThrPool J) (n : ℕ) : ThrPool J :=
  if n < p.nthreads_ then
    { p with jobq_ := p.jobq_.callEnq (poisonPill J), destructor := .adds n }
  else { p with destructor := .joins 0 }

/-- The destructor is called, when no other thread is about to add a job. -/
def destroy (p : ThrPool J) : Option (ThrPool J) :=
  if p.destructor = .idle ∧ p.jobq_.enqs.isEmpty ∧ p.jobq_.has_space_c_.isEmpty then
    some (p.addPill 0)
  else none

/-- The second loop of the destructor. -/
def join (p : ThrPool J) : Option (ThrPool J) :=
  match p.destructor with
  | .joins i =>
    if i < p.nthreads_ ∧ i ∈ p.exited then some { p with destructor := .joins (i + 1) } else none
  | _ => none

variable [DecidableEq J]

/-- A pass of `enq`. The destructor goes on when its call has returned. -/
def enq (p : ThrPool J) (c : Enqueuer PoolThread (Option J)) (woken : Option PoolThread) :
    Option (ThrPool J) :=
  (p.jobq_.enq c woken).map fun result =>
    let p := { p with jobq_ := result.1 }
    match p.destructor with
    | .adds n => if result.2 = none then p else p.addPill (n + 1)
    | _ => p

/-- `ThrPool::takeJob` in the loop of `do_worker`: the thread runs the job that it has taken, or
exits. -/
def takeJob (p : ThrPool J) (i : ℕ) (woken : Option (Enqueuer PoolThread (Option J))) :
    Option (ThrPool J) :=
  (p.jobq_.deq (.worker i) woken).map fun result =>
    let p := { p with jobq_ := result.1 }
    match result.2 with
    | none => p
    | some none => { p with exited := i :: p.exited }
    | some (some j) => { p with running := (i, j) :: p.running }

/-- The job returns, and the thread calls `takeJob` again. -/
def returns (p : ThrPool J) (i : ℕ) (j : J) : Option (ThrPool J) :=
  if (i, j) ∈ p.running then
    some { p with
      running := p.running.erase (i, j)
      finished := p.finished ++ [j]
      jobq_ := p.jobq_.callDeq (.worker i) }
  else none

/-- The state after an event. -/
def step (p : ThrPool J) : PoolEvent J → Option (ThrPool J)
  | .addJob k j => p.addJob k j
  | .enq c woken => p.enq c woken
  | .takeJob i woken => p.takeJob i woken
  | .returns i j => p.returns i j
  | .destroy => p.destroy
  | .join => p.join
  | .wakeDeq t => (p.jobq_.wakeDeq t).map fun q => { p with jobq_ := q }
  | .wakeEnq c => (p.jobq_.wakeEnq c).map fun q => { p with jobq_ := q }

/-- The jobs that were accepted, in this order. -/
def accepted (p : ThrPool J) : List J := p.jobq_.entered.filterMap id

/-- The jobs that a thread has taken, in this order. -/
def started (p : ThrPool J) : List J := p.jobq_.left.filterMap id

/-- The jobs in the queue. -/
def queued (p : ThrPool J) : List J := p.jobq_.q_.filterMap id

/-- The destructor has returned. -/
def Destroyed (p : ThrPool J) : Prop := p.destructor = .joins p.nthreads_

end ThrPool

/-- A pool with any number of threads. -/
def poolSystem (J : Type) [DecidableEq J] : System (ThrPool J) (PoolEvent J) where
  init p := ∃ sz blocking, p = .construct sz blocking
  step := ThrPool.step

namespace ThrPool

variable {J : Type}

/-! ## Where the threads and the jobs are -/

/-- The number of jobs without a function that were added. -/
def pills (p : ThrPool J) : ℕ :=
  match p.destructor with
  | .idle => 0
  | .adds n => n
  | .joins _ => p.nthreads_

/-- The threads of the pool, by where they are. -/
def threads (p : ThrPool J) : List PoolThread :=
  p.jobq_.takers ++ (p.running.map (fun r => .worker r.1) ++ p.exited.map .worker)

/-- The calls of `enq`, by what the destructor does. -/
def Called (p : ThrPool J) : Prop :=
  match p.destructor with
  | .idle => ∀ c ∈ p.jobq_.callers, ∃ j, c.e = some j
  | .adds n => n < p.nthreads_ ∧ p.jobq_.callers = [poisonPill J]
  | .joins i => i ≤ p.nthreads_ ∧ p.jobq_.callers = [] ∧ ∀ k < i, k ∈ p.exited

/-- What holds between any two steps. -/
structure Inv (p : ThrPool J) : Prop where
  /-- The queue. -/
  queue : p.jobq_.Inv
  /-- Its limit. -/
  limit : p.jobq_.max_ = 100 * p.nthreads_
  /-- Each thread of the pool is in one place. -/
  threads : p.threads.Perm ((List.range p.nthreads_).map .worker)
  /-- The calls of `enq`. -/
  called : p.Called
  /-- The jobs without a function come after all others. -/
  entered : p.jobq_.entered = p.accepted.map some ++ List.replicate p.pills none
  /-- Each of them that was taken has made a thread exit. -/
  exits : p.jobq_.left.countP Option.isNone = p.exited.length
  /-- A job that was taken is running or has returned. -/
  jobs : p.started.Perm (p.finished ++ p.running.map Prod.snd)

/-- A new pool. -/
theorem inv_construct (sz : ℕ) (blocking : Bool) : (construct sz blocking : ThrPool J).Inv where
  queue := ⟨rfl, fun _ => Nat.zero_le _, nofun, fun hne => absurd rfl hne,
    fun hne => absurd rfl hne⟩
  limit := rfl
  threads := by
    show ((List.range sz).map PoolThread.worker ++ [] ++ []).Perm ((List.range sz).map _)
    rw [List.append_nil, List.append_nil]
  called := nofun
  entered := rfl
  exits := rfl
  jobs := List.Perm.nil

variable {p p' : ThrPool J}

theorem Called.of_idle (h : p.Called) (hd : p.destructor = .idle) :
    ∀ c ∈ p.jobq_.callers, ∃ j, c.e = some j := by
  unfold Called at h
  rwa [hd] at h

theorem Called.of_adds (h : p.Called) {n : ℕ} (hd : p.destructor = .adds n) :
    n < p.nthreads_ ∧ p.jobq_.callers = [poisonPill J] := by
  unfold Called at h
  rwa [hd] at h

theorem Called.of_joins (h : p.Called) {i : ℕ} (hd : p.destructor = .joins i) :
    i ≤ p.nthreads_ ∧ p.jobq_.callers = [] ∧ ∀ k < i, k ∈ p.exited := by
  unfold Called at h
  rwa [hd] at h

/-- The calls of `enq` are those before. -/
theorem Called.perm (h : p.Called) {q : Fifo PoolThread (Option J)}
    (hcallers : q.callers.Perm p.jobq_.callers) : ({ p with jobq_ := q } : ThrPool J).Called := by
  unfold Called
  dsimp only
  cases hd : p.destructor with
  | idle => exact fun c hc => h.of_idle hd c (hcallers.subset hc)
  | adds n =>
    obtain ⟨hlt, hpill⟩ := h.of_adds hd
    exact ⟨hlt, List.perm_singleton.mp (hpill ▸ hcallers)⟩
  | joins i =>
    obtain ⟨hle, hnone, hexited⟩ := h.of_joins hd
    exact ⟨hle, List.perm_nil.mp (hnone ▸ hcallers), hexited⟩

namespace Inv

variable {q : Fifo PoolThread (Option J)} {c : Enqueuer PoolThread (Option J)}
  {woken : Option PoolThread}

/-- The queue and the destructor have changed, but no job has left the queue, and the threads are
those before. -/
theorem requeue (h : p.Inv) {d : DestructorPc} (hq : q.Inv) (hmax : q.max_ = p.jobq_.max_)
    (hleft : q.left = p.jobq_.left) (htakers : q.takers.Perm p.jobq_.takers)
    (hcalled : ({ p with jobq_ := q, destructor := d } : ThrPool J).Called)
    (hentered : q.entered = (q.entered.filterMap id).map some ++
      List.replicate ({ p with destructor := d } : ThrPool J).pills none) :
    ({ p with jobq_ := q, destructor := d } : ThrPool J).Inv where
  queue := hq
  limit := hmax.trans h.limit
  threads := (htakers.append_right _).trans h.threads
  called := hcalled
  entered := hentered
  exits := by
    rw [hleft]
    exact h.exits
  jobs := by
    have hjobs := h.jobs
    unfold started at hjobs ⊢
    rw [hleft]
    exact hjobs

/-- The destructor goes on to its next job without a function, or to the threads. Its last call has
returned, and `n` of these jobs were added. -/
theorem addPill (h : p.Inv) (hq : q.Inv) (hmax : q.max_ = p.jobq_.max_)
    (hleft : q.left = p.jobq_.left) (htakers : q.takers.Perm p.jobq_.takers)
    (hcallers : q.callers = []) {n : ℕ} (hn : n ≤ p.nthreads_)
    (hentered : q.entered = (q.entered.filterMap id).map some ++ List.replicate n none) :
    (({ p with jobq_ := q } : ThrPool J).addPill n).Inv := by
  unfold ThrPool.addPill
  dsimp only
  split_ifs with hlt
  · refine h.requeue (hq.callEnq _) hmax hleft htakers ⟨hlt, ?_⟩ hentered
    show poisonPill J :: q.callers = [poisonPill J]
    rw [hcallers]
  · obtain rfl : n = p.nthreads_ := Nat.le_antisymm hn (not_lt.mp hlt)
    exact h.requeue hq hmax hleft htakers
      ⟨Nat.zero_le _, hcallers, fun k hk => absurd hk (Nat.not_lt_zero k)⟩ hentered

/-- `addJob` is called. -/
theorem addJob (h : p.Inv) {k : ℕ} {j : J} (hstep : p.addJob k j = some p') : p'.Inv := by
  unfold ThrPool.addJob at hstep
  split_ifs at hstep with hidle
  obtain rfl := Option.some.inj hstep
  refine h.requeue (h.queue.callEnq _) rfl rfl (List.Perm.refl _) ?_ h.entered
  unfold Called
  dsimp only
  rw [hidle]
  intro c hc
  rcases List.mem_cons.mp hc with rfl | hc
  · exact ⟨j, rfl⟩
  · exact h.called.of_idle hidle c hc

/-- The destructor is called. -/
theorem destroy (h : p.Inv) (hstep : p.destroy = some p') : p'.Inv := by
  unfold ThrPool.destroy at hstep
  split_ifs at hstep with hidle
  obtain rfl := Option.some.inj hstep
  have hentered := h.entered
  unfold accepted pills at hentered
  rw [hidle.1] at hentered
  refine h.addPill h.queue rfl rfl (List.Perm.refl _) ?_ (Nat.zero_le _) hentered
  rw [Fifo.callers, List.isEmpty_iff.mp hidle.2.1, List.isEmpty_iff.mp hidle.2.2]
  rfl

/-- The destructor has joined a thread. -/
theorem join (h : p.Inv) (hstep : p.join = some p') : p'.Inv := by
  unfold ThrPool.join at hstep
  cases hd : p.destructor with
  | idle =>
    rw [hd] at hstep
    cases hstep
  | adds n =>
    rw [hd] at hstep
    cases hstep
  | joins i =>
    rw [hd] at hstep
    dsimp only at hstep
    split_ifs at hstep with hjoin
    obtain rfl := Option.some.inj hstep
    obtain ⟨-, hnone, hexited⟩ := h.called.of_joins hd
    have hentered := h.entered
    unfold accepted pills at hentered
    rw [hd] at hentered
    refine h.requeue h.queue rfl rfl (List.Perm.refl _) ⟨hjoin.1, hnone, ?_⟩ hentered
    intro k hk
    rcases Nat.lt_succ_iff_lt_or_eq.mp hk with hk | rfl
    · exact hexited k hk
    · exact hjoin.2

variable [DecidableEq J]

/-- A pass of `enq`, before the destructor is called. -/
theorem enq_idle (h : p.Inv) (hd : p.destructor = .idle) {ret : Option Bool}
    (hpass : p.jobq_.enq c woken = some (q, ret)) : ({ p with jobq_ := q } : ThrPool J).Inv := by
  obtain ⟨htakers, hcallers⟩ := Fifo.enq_perm hpass
  obtain ⟨hmax, hleft, hadded⟩ := Fifo.enq_history hpass
  have hcalled := h.called.of_idle hd
  have hentered := h.entered
  unfold accepted pills at hentered
  rw [hd] at hentered
  refine h.requeue (h.queue.enq hpass) hmax hleft htakers ?_ ?_
  · unfold Called
    rw [hd]
    intro c' hc'
    refine hcalled c' ?_
    split_ifs at hcallers
    · exact hcallers.subset hc'
    · exact hcallers.subset (List.mem_cons_of_mem _ hc')
  · unfold pills
    rw [hd, hadded]
    dsimp only at hentered ⊢
    split_ifs
    · obtain ⟨j, hj⟩ := hcalled c (List.mem_append_left _ (Fifo.enq_cases hpass).1)
      rw [List.replicate_zero, List.append_nil] at hentered ⊢
      rw [hj, List.filterMap_append, List.map_append, ← hentered]
      rfl
    · exact hentered

/-- A pass of `enq` by the destructor. -/
theorem enq_adds (h : p.Inv) {n : ℕ} (hd : p.destructor = .adds n) {ret : Option Bool}
    (hpass : p.jobq_.enq c woken = some (q, ret)) :
    (if ret = none then { p with jobq_ := q }
      else ({ p with jobq_ := q } : ThrPool J).addPill (n + 1)).Inv := by
  obtain ⟨htakers, hcallers⟩ := Fifo.enq_perm hpass
  obtain ⟨hmax, hleft, hadded⟩ := Fifo.enq_history hpass
  obtain ⟨hlt, hpill⟩ := h.called.of_adds hd
  have hentered := h.entered
  unfold accepted pills at hentered
  rw [hd] at hentered
  dsimp only at hentered
  obtain ⟨hmem, hcases⟩ := Fifo.enq_cases hpass
  obtain rfl : c = poisonPill J := by
    have hc : c ∈ p.jobq_.callers := List.mem_append_left _ hmem
    rw [hpill] at hc
    exact List.mem_singleton.mp hc
  split_ifs with hret
  · rw [if_pos hret] at hcallers
    refine h.requeue (h.queue.enq hpass) hmax hleft htakers (h.called.perm hcallers) ?_
    subst hret
    unfold pills
    rw [hd, hadded]
    exact hentered
  · -- The call has returned, and not with `false`, since it blocks.
    rw [if_neg hret] at hcallers
    obtain rfl : ret = some true := by
      rcases hcases with ⟨htrue, -⟩ | ⟨hnone, -⟩ | ⟨-, -, hblocking, -⟩
      · exact htrue
      · exact absurd hnone hret
      · cases hblocking
    rw [hpill] at hcallers
    refine h.addPill (h.queue.enq hpass) hmax hleft htakers
      (List.perm_nil.mp (List.Perm.cons_inv hcallers)) hlt ?_
    rw [hadded, if_pos rfl, List.filterMap_append, List.map_append, List.replicate_succ',
      ← List.append_assoc]
    nth_rewrite 1 [hentered]
    rw [show (poisonPill J).e = none from rfl]
    simp

/-- A pass of `enq`. -/
theorem enq (h : p.Inv) (hstep : p.enq c woken = some p') : p'.Inv := by
  obtain ⟨⟨q, ret⟩, hpass, rfl⟩ := Option.map_eq_some_iff.mp hstep
  dsimp only
  cases hd : p.destructor with
  | idle => simpa only [hd] using h.enq_idle hd hpass
  | adds n => simpa only [hd] using h.enq_adds hd hpass
  | joins i =>
    -- Nobody is in `enq` any more.
    have hc : c ∈ p.jobq_.callers := List.mem_append_left _ (Fifo.enq_cases hpass).1
    rw [(h.called.of_joins hd).2.1] at hc
    cases hc

/-- A pass of `takeJob`. -/
theorem takeJob (h : p.Inv) {i : ℕ} {woken : Option (Enqueuer PoolThread (Option J))}
    (hstep : p.takeJob i woken = some p') : p'.Inv := by
  obtain ⟨⟨q, ret⟩, hpass, rfl⟩ := Option.map_eq_some_iff.mp hstep
  have hq := h.queue.deq hpass
  obtain ⟨hcallers, htakers⟩ := Fifo.deq_perm hpass
  obtain ⟨hmax, hentered, hleft⟩ := Fifo.deq_history hpass
  have hcalled := h.called.perm hcallers
  have hlimit := hmax.trans h.limit
  have hform : q.entered = (q.entered.filterMap id).map some ++ List.replicate p.pills none := by
    rw [hentered]
    exact h.entered
  cases ret with
  | none =>
    refine h.requeue hq hmax ?_ htakers hcalled hform
    rw [hleft, Option.toList_none, List.append_nil]
  | some job =>
    rw [if_neg (Option.some_ne_none job)] at htakers
    -- The thread leaves `takeJob` and is counted elsewhere.
    have hmoved : (q.takers ++ (PoolThread.worker i ::
        (p.running.map (fun r => PoolThread.worker r.1) ++ p.exited.map PoolThread.worker))).Perm
        ((List.range p.nthreads_).map .worker) :=
      List.perm_middle.trans ((htakers.append_right _).trans h.threads)
    cases job with
    | none =>
      refine ⟨hq, hlimit, ?_, ?_, hform, ?_, ?_⟩
      · exact ((List.perm_middle.append_left _).trans hmoved)
      · -- More threads have exited than before.
        unfold Called at hcalled ⊢
        dsimp only at hcalled ⊢
        cases hd : p.destructor with
        | idle => simpa only [hd] using hcalled
        | adds n => simpa only [hd] using hcalled
        | joins k =>
          rw [hd] at hcalled
          exact ⟨hcalled.1, hcalled.2.1, fun k' hk' => List.mem_cons_of_mem _ (hcalled.2.2 k' hk')⟩
      · show q.left.countP Option.isNone = p.exited.length + 1
        rw [hleft, List.countP_append, h.exits]
        rfl
      · show (q.left.filterMap id).Perm _
        rw [hleft, List.filterMap_append]
        exact (List.append_nil p.started).symm ▸ h.jobs
    | some j =>
      refine ⟨hq, hlimit, hmoved, hcalled, hform, ?_, ?_⟩
      · show q.left.countP Option.isNone = p.exited.length
        rw [hleft, List.countP_append, h.exits]
        rfl
      · show (q.left.filterMap id).Perm (p.finished ++ j :: p.running.map Prod.snd)
        rw [hleft, List.filterMap_append]
        have hjobs : (p.jobq_.left.filterMap id).Perm _ := h.jobs
        exact (List.perm_append_singleton j _).trans
          ((hjobs.cons j).trans List.perm_middle.symm)

/-- A job returns. -/
theorem returns (h : p.Inv) {i : ℕ} {j : J} (hstep : p.returns i j = some p') : p'.Inv := by
  unfold ThrPool.returns at hstep
  split_ifs at hstep with hmem
  obtain rfl := Option.some.inj hstep
  have hrunning := List.perm_cons_erase hmem
  refine ⟨h.queue.callDeq _, h.limit, ?_, h.called, h.entered, h.exits, ?_⟩
  · have hthread := hrunning.map fun r => PoolThread.worker r.1
    refine List.Perm.trans ?_ h.threads
    show (PoolThread.worker i :: (p.jobq_.takers ++ _)).Perm _
    exact List.perm_middle.symm.trans ((hthread.symm.append_right _).append_left _)
  · have hjob : (p.running.map Prod.snd).Perm (j :: (p.running.erase (i, j)).map Prod.snd) :=
      hrunning.map Prod.snd
    refine h.jobs.trans ((hjob.append_left _).trans ?_)
    exact List.Perm.of_eq (List.append_assoc p.finished [j] _).symm

/-- A thread that waits for a job wakes up. -/
theorem wakeDeq (h : p.Inv) {t : PoolThread} (hwake : p.jobq_.wakeDeq t = some q) :
    ({ p with jobq_ := q } : ThrPool J).Inv := by
  have hq : q.Inv := h.queue.step (show p.jobq_.step (.wakeDeq t) = some q from hwake)
  unfold Fifo.wakeDeq at hwake
  split_ifs at hwake with hmem
  obtain rfl := Option.some.inj hwake
  refine h.requeue hq rfl rfl ?_ (h.called.perm (List.Perm.refl _)) h.entered
  exact List.perm_middle.symm.trans ((List.perm_cons_erase hmem).symm.append_left _)

/-- A thread that waits for room wakes up. -/
theorem wakeEnq (h : p.Inv) (hwake : p.jobq_.wakeEnq c = some q) :
    ({ p with jobq_ := q } : ThrPool J).Inv := by
  have hq : q.Inv := h.queue.step (show p.jobq_.step (.wakeEnq c) = some q from hwake)
  unfold Fifo.wakeEnq at hwake
  split_ifs at hwake with hmem
  obtain rfl := Option.some.inj hwake
  refine h.requeue hq rfl rfl (List.Perm.refl _) (h.called.perm ?_) h.entered
  exact List.perm_middle.symm.trans ((List.perm_cons_erase hmem).symm.append_left _)

/-- A step. -/
theorem step (h : p.Inv) {e : PoolEvent J} (hstep : p.step e = some p') : p'.Inv := by
  cases e with
  | addJob k j => exact h.addJob hstep
  | enq c woken => exact h.enq hstep
  | takeJob i woken => exact h.takeJob hstep
  | returns i j => exact h.returns hstep
  | destroy => exact h.destroy hstep
  | join => exact h.join hstep
  | wakeDeq t =>
    obtain ⟨q, hwake, rfl⟩ := Option.map_eq_some_iff.mp hstep
    exact h.wakeDeq hwake
  | wakeEnq c =>
    obtain ⟨q, hwake, rfl⟩ := Option.map_eq_some_iff.mp hstep
    exact h.wakeEnq hwake

end Inv

/-- The invariant holds in every reachable state. -/
theorem inv_of_reachable [DecidableEq J] (h : (poolSystem J).Reachable System.anything p) :
    p.Inv := by
  refine System.Reachable.invariant ?_ (fun _ _ _ hp _ hstep => hp.step hstep) h
  rintro _ ⟨sz, blocking, rfl⟩
  exact inv_construct sz blocking

/-! ## The destructor -/

namespace Inv

/-- As many threads have exited as there are, so none is elsewhere. -/
theorem none_elsewhere (h : p.Inv) (hle : p.nthreads_ ≤ p.exited.length) :
    p.jobq_.takers = [] ∧ p.running = [] ∧ p.exited.length = p.nthreads_ := by
  have hlength := h.threads.length_eq
  unfold ThrPool.threads at hlength
  simp only [List.length_append, List.length_map, List.length_range] at hlength
  refine ⟨List.length_eq_zero_iff.mp ?_, List.length_eq_zero_iff.mp ?_, ?_⟩ <;> omega

/-- All threads have exited, so none is elsewhere. -/
theorem all_exited (h : p.Inv) (hall : ∀ i < p.nthreads_, i ∈ p.exited) :
    p.jobq_.takers = [] ∧ p.running = [] ∧ p.exited.length = p.nthreads_ := by
  have hsub : List.range p.nthreads_ ⊆ p.exited := fun i hi => hall i (List.mem_range.mp hi)
  refine h.none_elsewhere ?_
  simpa using (List.subperm_of_subset List.nodup_range hsub).length_le

/-- As many threads have exited as there are, so each of them has. -/
theorem mem_exited (h : p.Inv) (hexited : p.exited.length = p.nthreads_) {i : ℕ}
    (hi : i < p.nthreads_) : i ∈ p.exited := by
  obtain ⟨htakers, hrunning, -⟩ := h.none_elsewhere hexited.ge
  have hthreads := h.threads
  rw [ThrPool.threads, htakers, hrunning, List.nil_append, List.map_nil, List.nil_append]
    at hthreads
  have hworker := hthreads.symm.subset (List.mem_map_of_mem (List.mem_range.mpr hi))
  obtain ⟨k, hk, heq⟩ := List.mem_map.mp hworker
  cases heq
  exact hk

/-- The jobs without a function that are in the queue. -/
theorem countP_queue (h : p.Inv) :
    p.exited.length + p.jobq_.q_.countP Option.isNone = p.pills := by
  have hentered : p.jobq_.entered.countP Option.isNone = p.pills := by
    rw [h.entered, List.countP_append, List.countP_map, List.countP_replicate]
    simp
  rw [h.queue.order, List.countP_append, h.exits] at hentered
  exact hentered

/-- The last job without a function was taken, so the queue is empty. -/
theorem queue_eq_nil (h : p.Inv) (hpills : p.exited.length = p.pills) (hpos : 0 < p.pills) :
    p.jobq_.q_ = [] := by
  by_contra hne
  -- It is the last job that has entered, and with anything in the queue it would be there.
  have hlast : p.jobq_.entered.getLast? = some none := by
    rw [h.entered, List.getLast?_append_of_ne_nil _ (by simpa using hpos.ne')]
    simp [List.getLast?_replicate, hpos.ne']
  rw [h.queue.order, List.getLast?_append_of_ne_nil _ hne] at hlast
  have hmem : none ∈ p.jobq_.q_ := List.mem_of_getLast? hlast
  have hcount : 0 < p.jobq_.q_.countP Option.isNone := List.countP_pos_iff.mpr ⟨none, hmem, rfl⟩
  have := h.countP_queue
  omega

end Inv

/-- Each job that was accepted was taken or is in the queue, and each one that was taken is running
or has returned; they are taken in the order in which they were accepted. When the destructor of a
pool with threads returns, all of them have returned. -/
theorem pool_drains [DecidableEq J] (h : (poolSystem J).Reachable System.anything p) :
    p.accepted = p.started ++ p.queued ∧ p.started.Perm (p.finished ++ p.running.map Prod.snd) ∧
      (p.Destroyed → 0 < p.nthreads_ →
        p.queued = [] ∧ p.running = [] ∧ p.finished.Perm p.accepted) := by
  have hinv := inv_of_reachable h
  have horder : p.accepted = p.started ++ p.queued := by
    unfold accepted started queued
    rw [hinv.queue.order, List.filterMap_append]
  refine ⟨horder, hinv.jobs, fun hdestroyed hpos => ?_⟩
  have hcalled := hinv.called
  have hpills : p.pills = p.nthreads_ := by rw [pills, hdestroyed]
  unfold Called at hcalled
  rw [hdestroyed] at hcalled
  obtain ⟨-, hrunning, hexited⟩ := hinv.all_exited hcalled.2.2
  have hqueued : p.queued = [] := by
    rw [queued, hinv.queue_eq_nil (by omega) (by omega)]
    rfl
  refine ⟨hqueued, hrunning, ?_⟩
  have hjobs := hinv.jobs
  rw [hrunning, List.map_nil, List.append_nil] at hjobs
  rw [horder, hqueued, List.append_nil]
  exact hjobs.symm

/-- A pool with one thread, which waits for a job and is woken by it. The destructor returns after
the job has. -/
theorem pool_drains_one_job : ∃ p : ThrPool ℕ, (poolSystem ℕ).Reachable System.anything p ∧
    p.Destroyed ∧ p.accepted = [7] ∧ p.finished.Perm [7] := by
  have hmap : ((poolSystem ℕ).exec (.construct 1 false) [.takeJob 0 none, .addJob 5 7,
      .enq ⟨.caller 5, some 7, false⟩ (some (.worker 0)), .takeJob 0 none, .destroy,
      .enq (poisonPill ℕ) none, .returns 0 7, .takeJob 0 none, .join]).map
      (fun p => (p.destructor, p.nthreads_, p.accepted)) = some (.joins 1, 1, [7]) := by decide
  obtain ⟨p, hexec, hval⟩ := Option.map_eq_some_iff.mp hmap
  simp only [Prod.mk.injEq] at hval
  have hreachable := System.Reachable.of_exec hexec ⟨1, false, rfl⟩
  have hdestroyed : p.Destroyed := by rw [Destroyed, hval.1, hval.2.1]
  have hdrained := (pool_drains hreachable).2.2 hdestroyed (by rw [hval.2.1]; decide)
  exact ⟨p, hreachable, hdestroyed, hval.2.2, hval.2.2 ▸ hdrained.2.2⟩

/-- What is left to do for the destructor and the threads. -/
def weight (p : ThrPool J) : ℕ :=
  6 * (p.nthreads_ - p.pills) + 4 * p.jobq_.q_.length + 2 * p.running.length +
    p.jobq_.deqs.length + p.jobq_.enqs.length +
    match p.destructor with
    | .joins i => p.nthreads_ - i
    | _ => p.nthreads_

section Progress

variable [DecidableEq J]

/-- A signal wakes at most one thread. -/
theorem length_toList_le {α : Type} (o : Option α) : o.toList.length ≤ 1 := by
  cases o <;> simp

/-- A pass of `enq` by the destructor. -/
theorem weight_enq (h : p.Inv) (hd : p.destructor ≠ .idle)
    {c : Enqueuer PoolThread (Option J)} {woken : Option PoolThread}
    (hstep : p.enq c woken = some p') : p'.weight < p.weight := by
  obtain ⟨⟨q, ret⟩, hpass, rfl⟩ := Option.map_eq_some_iff.mp hstep
  obtain ⟨hmem, hcases⟩ := Fifo.enq_cases hpass
  have hc : c ∈ p.jobq_.callers := List.mem_append_left _ hmem
  have herase : (p.jobq_.enqs.erase c).length + 1 = p.jobq_.enqs.length := by
    rw [List.length_erase_of_mem hmem]
    have := List.length_pos_of_mem hmem
    omega
  have hwoken := length_toList_le woken
  cases hpc : p.destructor with
  | idle => exact absurd hpc hd
  | joins i =>
    rw [(h.called.of_joins hpc).2.1] at hc
    cases hc
  | adds n =>
    obtain ⟨hlt, hpill⟩ := h.called.of_adds hpc
    rw [hpill, List.mem_singleton] at hc
    subst hc
    rcases hcases with ⟨rfl, -, waiting, -, rfl⟩ | ⟨rfl, -, -, rfl⟩ | ⟨-, -, hblocking, -⟩
    · -- The queue has one more job, a thread may be awake, and one job less is to be added.
      simp only [addPill, reduceCtorEq, if_false]
      split_ifs with hnext
      · simp only [weight, pills, hpc, Fifo.callEnq, List.length_append, List.length_cons,
          List.length_nil]
        omega
      · simp only [weight, pills, hpc, List.length_append, List.length_cons, List.length_nil]
        omega
    · simp only [hpc, if_true, weight, pills]
      omega
    · cases hblocking

/-- A pass of `takeJob`. -/
theorem weight_takeJob {i : ℕ} {woken : Option (Enqueuer PoolThread (Option J))}
    (hstep : p.takeJob i woken = some p') : p'.weight < p.weight := by
  obtain ⟨⟨q, ret⟩, hpass, rfl⟩ := Option.map_eq_some_iff.mp hstep
  obtain ⟨hmem, hcases⟩ := Fifo.deq_cases hpass
  have herase : (p.jobq_.deqs.erase (.worker i)).length + 1 = p.jobq_.deqs.length := by
    rw [List.length_erase_of_mem hmem]
    have := List.length_pos_of_mem hmem
    omega
  have hwoken := length_toList_le woken
  rcases hcases with ⟨rfl, -, rfl⟩ | ⟨job, rest, rfl, hq, hcases⟩
  · simp only [weight, pills]
    omega
  · have hlength : p.jobq_.q_.length = rest.length + 1 := by rw [hq, List.length_cons]
    -- What the thread does with the job weighs less than the job in the queue.
    cases job <;> rcases hcases with ⟨-, -, waiting, -, rfl⟩ | ⟨-, rfl⟩ <;>
      simp only [weight, pills, List.length_append, List.length_cons] <;> omega

/-- Each step of the threads brings the destructor closer to its end. -/
theorem weight_step (h : p.Inv) (hd : p.destructor ≠ .idle) {e : PoolEvent J} (he : e.Productive)
    (hstep : p.step e = some p') : p'.weight < p.weight := by
  cases e with
  | addJob k j =>
    simp only [step, addJob, if_neg hd] at hstep
    cases hstep
  | enq c woken => exact weight_enq h hd hstep
  | takeJob i woken => exact weight_takeJob hstep
  | returns i j =>
    simp only [step, returns] at hstep
    split_ifs at hstep with hmem
    obtain rfl := Option.some.inj hstep
    have herase : (p.running.erase (i, j)).length + 1 = p.running.length := by
      rw [List.length_erase_of_mem hmem]
      have := List.length_pos_of_mem hmem
      omega
    simp only [weight, pills, Fifo.callDeq, List.length_cons]
    omega
  | destroy =>
    simp only [step, destroy, hd, false_and, if_false] at hstep
    cases hstep
  | join =>
    simp only [step, join] at hstep
    cases hpc : p.destructor with
    | idle => exact absurd hpc hd
    | adds n =>
      rw [hpc] at hstep
      cases hstep
    | joins i =>
      rw [hpc] at hstep
      dsimp only at hstep
      split_ifs at hstep with hjoin
      obtain rfl := Option.some.inj hstep
      simp only [weight, pills, hpc]
      omega
  | wakeDeq t => cases he
  | wakeEnq c => cases he

/-- A thread of the pool that is awake can go on. -/
theorem exists_step_of_awake (h : p.Inv) (hawake : p.running ≠ [] ∨ p.jobq_.deqs ≠ []) :
    ∃ e : PoolEvent J, e.Productive ∧ ∃ p', p.step e = some p' := by
  rcases hawake with hrunning | hdeqs
  · obtain ⟨⟨i, j⟩, hmem⟩ := List.exists_mem_of_ne_nil _ hrunning
    exact ⟨.returns i j, trivial, _, if_pos hmem⟩
  · obtain ⟨t, hmem⟩ := List.exists_mem_of_ne_nil _ hdeqs
    -- Only threads of the pool call `takeJob`.
    obtain ⟨i, -, rfl⟩ := List.mem_map.mp
      (h.threads.subset (List.mem_append_left _ (List.mem_append_left _ hmem)))
    obtain ⟨woken, result, hpass⟩ := Fifo.exists_deq hmem
    refine ⟨.takeJob i woken, trivial, ?_⟩
    simp only [step, takeJob, hpass, Option.map_some]
    exact ⟨_, rfl⟩

omit [DecidableEq J] in
/-- No thread of the pool is awake. Then all have exited, or the queue is empty. -/
theorem exited_or_empty (h : p.Inv) (hrunning : p.running = []) (hdeqs : p.jobq_.deqs = []) :
    p.exited.length = p.nthreads_ ∨ p.jobq_.q_ = [] := by
  by_cases hwaiting : p.jobq_.non_empty_c_ = []
  · left
    have hlength := h.threads.length_eq
    unfold threads Fifo.takers at hlength
    simpa [hrunning, hdeqs, hwaiting] using hlength
  · right
    have := h.queue.consumers hwaiting
    rw [hdeqs, List.length_nil] at this
    exact List.length_eq_zero_iff.mp (Nat.le_zero.mp this)

/-- Until it has returned, the destructor or a thread of the pool can go on. -/
theorem exists_step (h : p.Inv) (hd : p.destructor ≠ .idle) (hnot : ¬ p.Destroyed) :
    ∃ e : PoolEvent J, e.Productive ∧ ∃ p', p.step e = some p' := by
  by_cases hawake : p.running ≠ [] ∨ p.jobq_.deqs ≠ []
  · exact exists_step_of_awake h hawake
  rw [not_or, not_not, not_not] at hawake
  have hidle := exited_or_empty h hawake.1 hawake.2
  have hpills := h.countP_queue
  cases hpc : p.destructor with
  | idle => exact absurd hpc hd
  | adds n =>
    obtain ⟨hlt, hpill⟩ := h.called.of_adds hpc
    have hadded : p.pills = n := by rw [pills, hpc]
    by_cases henqs : p.jobq_.enqs = []
    · -- The destructor waits for room. Not all threads have exited, so the queue would be empty.
      have hwaits : p.jobq_.has_space_c_ ≠ [] := by
        intro hnil
        rw [Fifo.callers, henqs, hnil] at hpill
        cases hpill
      have hroom := h.queue.producers hwaits
      rw [Fifo.awake, henqs, List.countP_nil, h.limit] at hroom
      rcases hidle with hexited | hempty
      · omega
      · rw [hempty, List.length_nil] at hroom
        omega
    · obtain ⟨c, hmem⟩ := List.exists_mem_of_ne_nil _ henqs
      obtain ⟨woken, result, hpass⟩ := Fifo.exists_enq hmem
      refine ⟨.enq c woken, trivial, ?_⟩
      simp only [step, enq, hpass, Option.map_some]
      exact ⟨_, rfl⟩
  | joins i =>
    have hadded : p.pills = p.nthreads_ := by rw [pills, hpc]
    have hlt : i < p.nthreads_ :=
      lt_of_le_of_ne (h.called.of_joins hpc).1 fun heq => hnot (by rw [Destroyed, hpc, heq])
    -- The threads have taken all jobs and have exited.
    have hexited : p.exited.length = p.nthreads_ := by
      rcases hidle with hexited | hempty
      · exact hexited
      · rw [hempty, List.countP_nil] at hpills
        omega
    refine ⟨.join, trivial, ?_⟩
    simp only [step, join, hpc, if_pos (And.intro hlt (h.mem_exited hexited hlt))]
    exact ⟨_, rfl⟩

/-- Once the destructor is called, each step of the threads that is not a spurious wake-up lowers a
number, and as long as the destructor has not returned there is such a step. So it returns, if the
jobs that are running do. -/
theorem destructor_returns (h : (poolSystem J).Reachable System.anything p)
    (hcalled : p.destructor ≠ .idle) :
    (∀ e p', e.Productive → p.step e = some p' → p'.weight < p.weight) ∧
      (p.Destroyed ∨ ∃ e : PoolEvent J, e.Productive ∧ ∃ p', p.step e = some p') := by
  have hinv := inv_of_reachable h
  refine ⟨fun e p' he hstep => weight_step hinv hcalled he hstep, ?_⟩
  by_cases hdestroyed : p.Destroyed
  · exact Or.inl hdestroyed
  · exact Or.inr (exists_step hinv hcalled hdestroyed)

end Progress

/-- The destructor of a pool with one thread is called while the thread waits for a job. It has not
returned, and can go on. -/
theorem destructor_returns_waiting : ∃ p : ThrPool ℕ,
    (poolSystem ℕ).Reachable System.anything p ∧ p.jobq_.non_empty_c_ = [.worker 0] ∧
    (p.Destroyed ∨ ∃ e : PoolEvent ℕ, e.Productive ∧ ∃ p', p.step e = some p') := by
  have hmap : ((poolSystem ℕ).exec (.construct 1 true) [.takeJob 0 none, .destroy]).map
      (fun p => (p.destructor, p.jobq_.non_empty_c_)) = some (.adds 0, [.worker 0]) := by decide
  obtain ⟨p, hexec, hval⟩ := Option.map_eq_some_iff.mp hmap
  simp only [Prod.mk.injEq] at hval
  have hreachable := System.Reachable.of_exec hexec ⟨1, true, rfl⟩
  have hcalled : p.destructor ≠ .idle := by
    rw [hval.1]
    decide
  exact ⟨p, hreachable, hval.2, (destructor_returns hreachable hcalled).2⟩

end ThrPool

end SimpleDfs.Rpc
