import Mathlib.Data.List.Nodup
import Mathlib.Data.List.Perm.Subperm
import SimpleDfs.Lock.Plain

/-!
# How many threads may use the lock server without a cache

A handler that waits for a lock keeps its thread of the dispatch pool. When all of these threads
wait for locks that somebody has (`Stuck`), no thread is left for the `release` that would let one
of them go on: nothing ever happens on the server again (`Stuck.forever`).

How many users does it take? Let the users be threads that ask for a lock only when they have none,
so that they do not get into each other's way by themselves. `pool_suffices_iff` says that a pool of
`n` threads is enough for `n` users and for no more. `rpcs` has a pool of 6 threads.
-/

namespace SimpleDfs.Lock.Plain

variable {n : ℕ} {ids : ℕ → ℕ} {s s' : State} {r : Request} {ts : List Thread} {e : Event}

/-- Every thread of the pool waits for a lock that somebody has. -/
def Stuck (n : ℕ) (s : State) : Prop :=
  s.taken = [] ∧ s.waiting.length = n ∧
    ∀ r ∈ s.waiting, r.op = .acquire ∧ s.owner r.lid ≠ none

/-- The users are the threads in `ts`, and ask for a lock only when they have none. -/
def Uses (ts : List Thread) (s : State) : Event → Prop
  | .acquire who _ => who ∈ ts ∧ ∀ y ∈ s.held, y.who ≠ who
  | _ => True

/-! ## Nothing happens any more -/

/-- What a handler does: it waits, replies or crashes. -/
theorem State.run_cases (ids : ℕ → ℕ) (s : State) (r : Request) :
    r.op = .acquire ∧ s.owner r.lid ≠ none ∧ s.run ids r = { s with waiting := r :: s.waiting } ∨
      (r.op = .acquire → s.owner r.lid = none) ∧ ((∃ status lock_list, s.run ids r =
        { s with lock_list := lock_list, replies := (r, status) :: s.replies }) ∨
      s.run ids r = { s with failed := true }) := by
  unfold State.run
  cases hop : r.op with
  | acquire =>
    dsimp only
    rcases s.acquire_cases (ids r.who.1) r.lid with ⟨hsome, hwait⟩ | ⟨hfree, count, hgrant⟩
    · rw [hwait]
      exact Or.inl ⟨rfl, hsome, rfl⟩
    · rw [hgrant]
      exact Or.inr ⟨fun _ => hfree, Or.inl ⟨_, _, rfl⟩⟩
  | release =>
    refine Or.inr ⟨nofun, ?_⟩
    dsimp only
    cases Plain.release s.lock_list (ids r.who.1) r.lid with
    | none => exact Or.inr rfl
    | some answer => exact Or.inl ⟨answer.1, answer.2, rfl⟩

/-- What does not change any more, and what becomes less. -/
def Frozen (s s' : State) : Prop :=
  s'.lock_list = s.lock_list ∧ s'.waiting.Perm s.waiting ∧ ∀ x ∈ s'.replies, x ∈ s.replies

/-- The threads of the pool still wait. -/
theorem Stuck.of_frozen (h : Stuck n s) (hfrozen : Frozen s s') (htaken : s'.taken = []) :
    Stuck n s' := by
  obtain ⟨hlock, hperm, -⟩ := hfrozen
  refine ⟨htaken, hperm.length_eq.trans h.2.1, fun r hr => ?_⟩
  unfold State.owner
  rw [hlock]
  exact h.2.2 r (hperm.mem_iff.mp hr)

/-- A step from where the pool is stuck. -/
theorem Stuck.step (h : Stuck n s) (hstep : s.step n ids e = some s') :
    Stuck n s' ∧ Frozen s s' := by
  suffices hboth : Frozen s s' ∧ s'.taken = [] from ⟨h.of_frozen hboth.1 hboth.2, hboth.1⟩
  obtain ⟨htaken, hfull, hwait⟩ := h
  cases next_of_step hstep with
  | acquire => exact ⟨⟨rfl, List.Perm.refl _, fun _ hx => hx⟩, htaken⟩
  | release => exact ⟨⟨rfl, List.Perm.refl _, fun _ hx => hx⟩, htaken⟩
  | arrive => exact ⟨⟨rfl, List.Perm.refl _, fun _ hx => hx⟩, htaken⟩
  | take _ hfree =>
    -- No thread of the pool is free.
    rw [htaken, hfull, List.length_nil, Nat.zero_add] at hfree
    exact absurd hfree (Nat.lt_irrefl n)
  | handle hmem =>
    rw [htaken] at hmem
    cases hmem
  | @look r hmem =>
    obtain ⟨hop, howner⟩ := hwait r hmem
    rcases State.run_cases ids { s with waiting := s.waiting.erase r } r with
      ⟨-, -, hrun⟩ | ⟨hfree, -⟩
    · rw [hrun]
      exact ⟨⟨rfl, (List.perm_cons_erase hmem).symm, fun _ hx => hx⟩, htaken⟩
    · exact absurd (hfree hop) howner
  | @reply x _ =>
    obtain ⟨⟨op, who, lid⟩, status⟩ := x
    cases status <;> cases op <;>
      exact ⟨⟨rfl, List.Perm.refl _, fun _ hx => List.mem_of_mem_erase hx⟩, htaken⟩

/-- From where the pool is stuck the locks do not change any more, the handlers that wait stay where
they are, and the server sends no reply. -/
theorem Stuck.forever (h : Stuck n s) (hsteps : (plainSystem n ids).Steps System.anything s s') :
    Stuck n s' ∧ Frozen s s' := by
  induction hsteps with
  | refl => exact ⟨h, rfl, List.Perm.refl _, fun _ hx => hx⟩
  | tail _ hlast ih =>
    obtain ⟨hstuck, hlock, hperm, hreplies⟩ := ih
    obtain ⟨e, -, hstep⟩ := hlast
    obtain ⟨hstuck', hlock', hperm', hreplies'⟩ := hstuck.step hstep
    exact ⟨hstuck', hlock'.trans hlock, hperm'.trans hperm, fun x hx => hreplies x (hreplies' x hx)⟩

/-! ## Enough threads -/

/-- The threads that are in a call. -/
def State.inCall (s : State) : List Thread :=
  s.calls.map Request.who ++ s.replies.map fun x => x.1.who

/-- A thread that is not busy is in no call. -/
theorem State.not_mem_inCall {who : Thread} (h : s.busy who = false) : who ∉ s.inCall := by
  intro hmem
  have hbusy : s.busy who = true := by
    unfold State.busy
    rw [Bool.or_eq_true, List.any_eq_true, List.any_eq_true]
    rcases List.mem_append.mp hmem with hcall | hreply
    · obtain ⟨r, hr, hwho⟩ := List.mem_map.mp hcall
      exact Or.inl ⟨r, hr, decide_eq_true hwho⟩
    · obtain ⟨x, hx, hwho⟩ := List.mem_map.mp hreply
      exact Or.inr ⟨x, hx, decide_eq_true hwho⟩
  rw [h] at hbusy
  cases hbusy

/-- The users do as they should. -/
structure Orderly (ts : List Thread) (s : State) : Prop where
  /-- A thread is in one call at a time. -/
  once : s.inCall.Nodup
  /-- The threads in calls are users. -/
  known : ∀ who ∈ s.inCall, who ∈ ts
  /-- The threads that have locks are users. -/
  holders : ∀ y ∈ s.held, y.who ∈ ts
  /-- A thread that asks for a lock has none. -/
  single : ∀ r ∈ s.calls, r.op = .acquire → ∀ y ∈ s.held, y.who ≠ r.who
  /-- A handler that waits is one of `acquire`. -/
  waits : ∀ r ∈ s.waiting, r.op = .acquire

namespace Orderly

/-- The same calls, in other places. -/
theorem move (h : Orderly ts s) (hheld : s'.held = s.held) (hcalls : s.calls.Perm s'.calls)
    (hreplies : s'.replies = s.replies) (hwaits : ∀ r ∈ s'.waiting, r.op = .acquire) :
    Orderly ts s' := by
  have hin : s.inCall.Perm s'.inCall := by
    unfold State.inCall
    rw [hreplies]
    exact (hcalls.map _).append_right _
  refine ⟨hin.nodup_iff.mp h.once, fun who hwho => h.known who (hin.mem_iff.mpr hwho), ?_, ?_,
    hwaits⟩
  · rw [hheld]
    exact h.holders
  · rw [hheld]
    exact fun r hr => h.single r (hcalls.mem_iff.mpr hr)

/-- A handler runs, whose call is `r`. -/
theorem run (h : Orderly ts s) {s₀ : State} (hheld : s₀.held = s.held)
    (hcalls : s.calls.Perm (r :: s₀.calls)) (hreplies : s₀.replies = s.replies)
    (hwaits : ∀ r ∈ s₀.waiting, r.op = .acquire) : Orderly ts (s₀.run ids r) := by
  have hin : s.inCall.Perm (r.who :: s₀.inCall) := by
    unfold State.inCall
    rw [hreplies]
    exact (hcalls.map _).append_right _
  have honce := hin.nodup_iff.mp h.once
  have hknown : ∀ who ∈ r.who :: s₀.inCall, who ∈ ts :=
    fun who hwho => h.known who (hin.mem_iff.mpr hwho)
  have hholders : ∀ y ∈ s₀.held, y.who ∈ ts := by
    rw [hheld]
    exact h.holders
  have hsingle : ∀ r' ∈ r :: s₀.calls, r'.op = .acquire → ∀ y ∈ s₀.held, y.who ≠ r'.who := by
    rw [hheld]
    exact fun r' hr' => h.single r' (hcalls.mem_iff.mpr hr')
  rcases State.run_cases ids s₀ r with ⟨hop, -, hrun⟩ | ⟨-, ⟨status, lock_list, hrun⟩ | hrun⟩
  · -- It waits: the call is still there.
    rw [hrun]
    have hcalls' : (r :: s₀.calls).Perm { s₀ with waiting := r :: s₀.waiting }.calls :=
      List.perm_middle.symm
    have hin' : (r.who :: s₀.inCall).Perm { s₀ with waiting := r :: s₀.waiting }.inCall :=
      (hcalls'.map Request.who).append_right _
    refine ⟨hin'.nodup_iff.mp honce, fun who hwho => hknown who (hin'.mem_iff.mpr hwho), hholders,
      fun r' hr' => hsingle r' (hcalls'.mem_iff.mpr hr'), fun r' hr' => ?_⟩
    rcases List.mem_cons.mp hr' with rfl | hr'
    · exact hop
    · exact hwaits r' hr'
  · -- It replies: the thread is still in the call.
    rw [hrun]
    have hin' : (r.who :: s₀.inCall).Perm
        { s₀ with lock_list := lock_list, replies := (r, status) :: s₀.replies }.inCall :=
      List.perm_middle.symm
    exact ⟨hin'.nodup_iff.mp honce, fun who hwho => hknown who (hin'.mem_iff.mpr hwho), hholders,
      fun r' hr' => hsingle r' (List.mem_cons_of_mem r hr'), hwaits⟩
  · rw [hrun]
    exact ⟨(List.nodup_cons.mp honce).2, fun who hwho => hknown who (List.mem_cons_of_mem _ hwho),
      hholders, fun r' hr' => hsingle r' (List.mem_cons_of_mem r hr'), hwaits⟩

/-- A reply arrives. -/
theorem reply (h : Orderly ts s) {x : Request × Status} (hx : x ∈ s.replies) :
    Orderly ts ({ s with replies := s.replies.erase x }.returns x) := by
  have hin : s.inCall.Perm (x.1.who :: { s with replies := s.replies.erase x }.inCall) := by
    have hreplies : (s.replies.map fun x => x.1.who).Perm
        (x.1.who :: (s.replies.erase x).map fun x => x.1.who) := (List.perm_cons_erase hx).map _
    exact (hreplies.append_left _).trans List.perm_middle
  obtain ⟨hnew, honce⟩ := List.nodup_cons.mp (hin.nodup_iff.mp h.once)
  have hknown : ∀ who ∈ x.1.who :: { s with replies := s.replies.erase x }.inCall, who ∈ ts :=
    fun who hwho => h.known who (hin.mem_iff.mpr hwho)
  have hrest : Orderly ts { s with replies := s.replies.erase x } :=
    { h with once := honce, known := fun who hwho => hknown who (List.mem_cons_of_mem _ hwho) }
  obtain ⟨⟨op, who, lid⟩, status⟩ := x
  cases status with
  | IOERR => exact { hrest with }
  | OK =>
    cases op with
    | release => exact hrest
    | acquire =>
      refine ⟨hrest.once, hrest.known, fun y hy => ?_, fun r hr hop y hy => ?_, hrest.waits⟩
      · rcases List.mem_cons.mp hy with rfl | hy
        · exact hknown who List.mem_cons_self
        · exact h.holders y hy
      · rcases List.mem_cons.mp hy with rfl | hy
        · -- The thread is in no other call.
          intro hwho
          exact hnew (List.mem_append_left _ (List.mem_map.mpr ⟨r, hr, hwho.symm⟩))
        · exact h.single r hr hop y hy

/-- Every step of the users and of the server keeps the order. -/
theorem step (h : Orderly ts s) (huses : Uses ts s e) (hstep : s.step n ids e = some s') :
    Orderly ts s' := by
  cases next_of_step hstep with
  | acquire hbusy =>
    refine ⟨List.nodup_cons.mpr ⟨State.not_mem_inCall hbusy, h.once⟩, ?_, h.holders, ?_, h.waits⟩
    · intro who hwho
      rcases List.mem_cons.mp hwho with rfl | hwho
      · exact huses.1
      · exact h.known who hwho
    · intro r hr hop
      rcases List.mem_cons.mp hr with rfl | hr
      · exact huses.2
      · exact h.single r hr hop
  | release hbusy hheld =>
    refine ⟨List.nodup_cons.mpr ⟨State.not_mem_inCall hbusy, h.once⟩, ?_,
      fun y hy => h.holders y (List.mem_of_mem_erase hy), ?_, h.waits⟩
    · intro who hwho
      rcases List.mem_cons.mp hwho with rfl | hwho
      · exact h.holders _ hheld
      · exact h.known who hwho
    · intro r hr hop y hy
      rcases List.mem_cons.mp hr with rfl | hr
      · cases hop
      · exact h.single r hr hop y (List.mem_of_mem_erase hy)
  | arrive hnet => exact h.move rfl (State.calls_arrive hnet) rfl h.waits
  | take hqueue => exact h.move rfl (State.calls_take hqueue) rfl h.waits
  | handle htaken => exact h.run rfl (State.calls_taken htaken) rfl h.waits
  | look hwaiting =>
    exact h.run rfl (State.calls_waiting hwaiting) rfl fun r hr =>
      h.waits r (List.mem_of_mem_erase hr)
  | reply hx => exact h.reply hx

/-- The handlers that wait do so for different threads. -/
theorem nodup_waiting (h : Orderly ts s) : (s.waiting.map Request.who).Nodup := by
  have hsub : (s.waiting.map Request.who).Sublist s.inCall :=
    ((List.sublist_append_right _ s.waiting).map Request.who).trans (List.sublist_append_left _ _)
  exact h.once.sublist hsub

/-- A thread that waits is not in another call. -/
theorem eq_of_call (h : Orderly ts s) {r' : Request} (hr : r ∈ s.calls) (hr' : r' ∈ s.calls)
    (hwho : r.who = r'.who) : r = r' := by
  have hnodup : (s.calls.map Request.who).Nodup :=
    h.once.sublist (List.sublist_append_left _ _)
  exact List.inj_on_of_nodup_map hnodup hr hr' hwho

/-- With enough threads the pool is not stuck: one of the users has a lock, and does not wait. -/
theorem not_stuck (h : Orderly ts s) (hinv : s.Inv ids) (hn : 0 < n) (hts : ts.length ≤ n) :
    ¬Stuck n s := by
  rintro ⟨-, hfull, hwait⟩
  have hcalls : ∀ r ∈ s.waiting, r ∈ s.calls := fun r hr => List.mem_append_right _ hr
  -- All users wait.
  have hsub : (s.waiting.map Request.who).Subperm ts := by
    refine h.nodup_waiting.subperm fun who hwho => h.known who (List.mem_append_left _ ?_)
    obtain ⟨r, hr, rfl⟩ := List.mem_map.mp hwho
    exact List.mem_map_of_mem (hcalls r hr)
  have hperm := hsub.perm_of_length_le (by rw [List.length_map, hfull]; exact hts)
  have hall : ∀ who ∈ ts, ∃ r ∈ s.waiting, r.who = who :=
    fun who hwho => List.mem_map.mp (hperm.mem_iff.mpr hwho)
  -- The lock that one of them waits for is somebody's.
  obtain ⟨r, hr⟩ : ∃ r, r ∈ s.waiting := List.exists_mem_of_length_pos (by omega)
  obtain ⟨y, hy, -⟩ := hinv.rights.exists_token (hwait r hr).2
  rcases List.mem_append.mp hy with hheld | hy
  · obtain ⟨r', hr', hwho⟩ := hall y.who (h.holders y hheld)
    exact h.single r' (hcalls r' hr') (hwait r' hr').1 y hheld hwho.symm
  · rcases List.mem_append.mp hy with hreply | hcall
    · obtain ⟨x, hx, -⟩ := List.mem_filterMap.mp hreply
      have hin : x.1.who ∈ s.replies.map fun x => x.1.who :=
        List.mem_map.mpr ⟨x, hx, rfl⟩
      obtain ⟨r', hr', hwho⟩ := hall x.1.who (h.known _ (List.mem_append_right _ hin))
      have hout : x.1.who ∈ s.calls.map Request.who := by
        rw [← hwho]
        exact List.mem_map_of_mem (hcalls r' hr')
      exact (List.disjoint_of_nodup_append h.once) hout hin
    · obtain ⟨b, hb, hback⟩ := List.mem_filterMap.mp hcall
      obtain ⟨r', hr', hwho⟩ := hall b.who
        (h.known _ (List.mem_append_left _ (List.mem_map_of_mem hb)))
      obtain rfl := h.eq_of_call (hcalls r' hr') hb hwho
      unfold Request.back at hback
      rw [(hwait r' hr').1] at hback
      cases hback

end Orderly

/-! ## Too few threads -/

/-- A user asks for lock 0, and a thread of the pool runs the handler. -/
theorem steps_ask {who : Thread} (hn : s.waiting.length < n) (hquiet : s.Quiet)
    (hbusy : s.busy who = false) (hwho : who ∈ ts) (hheld : s.held = []) :
    (plainSystem n ids).Steps (Uses ts) s (s.run ids ⟨.acquire, who, 0⟩) := by
  obtain ⟨lock_list, net, queue, taken, waiting, replies, held, failed⟩ := s
  obtain ⟨hsafe, hnet, hqueue, htaken⟩ := hquiet
  dsimp only at hn hsafe hnet hqueue htaken hheld
  subst hsafe hnet hqueue htaken hheld
  have hroom : 0 < 100 * n := by omega
  have hcall : (plainSystem n ids).step ⟨lock_list, [], [], [], waiting, replies, [], false⟩
      (.acquire who 0) =
      some ⟨lock_list, [⟨.acquire, who, 0⟩], [], [], waiting, replies, [], false⟩ := by
    simp [plainSystem, State.step, hbusy]
  have harrive : (plainSystem n ids).step
      ⟨lock_list, [⟨.acquire, who, 0⟩], [], [], waiting, replies, [], false⟩
      (.arrive ⟨.acquire, who, 0⟩) =
      some ⟨lock_list, [], [⟨.acquire, who, 0⟩], [], waiting, replies, [], false⟩ := by
    simp [plainSystem, State.step, hroom]
  have htake : (plainSystem n ids).step
      ⟨lock_list, [], [⟨.acquire, who, 0⟩], [], waiting, replies, [], false⟩ .take =
      some ⟨lock_list, [], [], [⟨.acquire, who, 0⟩], waiting, replies, [], false⟩ := by
    simp [plainSystem, State.step, hn]
  have hhandle : (plainSystem n ids).step
      ⟨lock_list, [], [], [⟨.acquire, who, 0⟩], waiting, replies, [], false⟩
      (.handle ⟨.acquire, who, 0⟩) =
      some (State.run ids ⟨lock_list, [], [], [], waiting, replies, [], false⟩
        ⟨.acquire, who, 0⟩) := by
    simp [plainSystem, State.step]
  exact .head ⟨.acquire who 0, ⟨hwho, fun _ hy => by cases hy⟩, hcall⟩
    (.head ⟨.arrive ⟨.acquire, who, 0⟩, trivial, harrive⟩ (.head ⟨.take, trivial, htake⟩
      (.single ⟨.handle ⟨.acquire, who, 0⟩, trivial, hhandle⟩)))

/-- All of `l` ask for lock 0, which somebody has, and wait. -/
theorem exists_waiting (l : List Thread) (hquiet : s.Quiet) (howner : s.owner 0 ≠ none)
    (hheld : s.held = []) (hl : l.Nodup) (hidle : ∀ who ∈ l, who ∈ ts ∧ s.busy who = false)
    (hn : s.waiting.length + l.length = n) (hwait : ∀ r ∈ s.waiting, r.op = .acquire ∧ r.lid = 0) :
    ∃ s', (plainSystem n ids).Steps (Uses ts) s s' ∧ Stuck n s' := by
  induction l generalizing s with
  | nil =>
    refine ⟨s, .refl, hquiet.2.2.2, hn, fun r hr => ?_⟩
    obtain ⟨hop, hlid⟩ := hwait r hr
    rw [hlid]
    exact ⟨hop, howner⟩
  | cons who l ih =>
    obtain ⟨hnew, hl⟩ := List.nodup_cons.mp hl
    obtain ⟨hwho, hbusy⟩ := hidle who List.mem_cons_self
    rw [List.length_cons] at hn
    have hask : (plainSystem n ids).Steps (Uses ts) s
        { s with waiting := ⟨.acquire, who, 0⟩ :: s.waiting } := by
      have hsteps : (plainSystem n ids).Steps (Uses ts) s (s.run ids ⟨.acquire, who, 0⟩) :=
        steps_ask (by omega) hquiet hbusy hwho hheld
      rcases State.run_cases ids s ⟨.acquire, who, 0⟩ with ⟨-, -, hrun⟩ | ⟨hfree, -⟩
      · rw [hrun] at hsteps
        exact hsteps
      · exact absurd (hfree rfl) howner
    have hrest := ih (s := { s with waiting := ⟨.acquire, who, 0⟩ :: s.waiting }) hquiet howner
      hheld hl ?_ (by rw [List.length_cons]; omega) ?_
    · obtain ⟨s', hsteps, hstuck⟩ := hrest
      exact ⟨s', hask.trans hsteps, hstuck⟩
    · intro who' hwho'
      obtain ⟨hmem, hbusy'⟩ := hidle who' (List.mem_cons_of_mem who hwho')
      refine ⟨hmem, ?_⟩
      have hne : who ≠ who' := fun heq => hnew (heq ▸ hwho')
      unfold State.busy State.calls at hbusy' ⊢
      simp only [List.any_append, List.any_cons, decide_eq_false hne, Bool.false_or] at hbusy' ⊢
      exact hbusy'
    · intro r hr
      rcases List.mem_cons.mp hr with rfl | hr
      · exact ⟨rfl, rfl⟩
      · exact hwait r hr

/-- With more users than threads in the pool, the pool can get stuck. -/
theorem exists_stuck (hids : ∀ c, ids c ≠ UNLOCKED) (hn : 0 < n) (hts : ts.Nodup)
    (hmore : n < ts.length) : ∃ s, (plainSystem n ids).Reachable (Uses ts) s ∧ Stuck n s := by
  cases ts with
  | nil => exact absurd hmore (Nat.not_lt_zero n)
  | cons first rest =>
    obtain ⟨hnew, hrest⟩ := List.nodup_cons.mp hts
    rw [List.length_cons] at hmore
    -- The first user gets the lock, and `n` others ask for it.
    have hfirst : (plainSystem n ids).Steps (Uses (first :: rest)) .start
        (State.start.run ids ⟨.acquire, first, 0⟩) :=
      steps_ask hn ⟨rfl, rfl, rfl, rfl⟩ rfl List.mem_cons_self rfl
    suffices hothers : ∃ s, (plainSystem n ids).Steps (Uses (first :: rest))
        (State.start.run ids ⟨.acquire, first, 0⟩) s ∧ Stuck n s by
      obtain ⟨s, hsteps, hstuck⟩ := hothers
      exact ⟨s, ⟨_, rfl, hfirst.trans hsteps⟩, hstuck⟩
    refine exists_waiting (rest.take n) ⟨rfl, rfl, rfl, rfl⟩ ?_ rfl
      (hrest.sublist (List.take_sublist n rest)) ?_ ?_ nofun
    · have howner : (State.start.run ids ⟨.acquire, first, 0⟩).owner 0 = some (ids first.1) :=
        if_neg (hids first.1)
      rw [howner]
      exact Option.some_ne_none _
    · intro who hwho
      have hmem := List.mem_of_mem_take hwho
      have hne : first ≠ who := fun heq => hnew (heq ▸ hmem)
      refine ⟨List.mem_cons_of_mem first hmem, ?_⟩
      show (false || (decide (first = who) || false)) = false
      rw [decide_eq_false hne]
      rfl
    · show 0 + (rest.take n).length = n
      rw [List.length_take]
      omega

/-- Let the users ask for a lock only when they have none. However they call, the pool does not get
stuck when it has a thread for each of them; with fewer threads it can, and then nothing happens on
the server any more, whatever the users do. -/
theorem pool_suffices_iff (hids : ∀ c, ids c ≠ UNLOCKED) (hn : 0 < n) (hts : ts.Nodup) :
    ((∀ s, (plainSystem n ids).Reachable (Uses ts) s → ¬Stuck n s) ↔ ts.length ≤ n) ∧
    ∀ s s', Stuck n s → (plainSystem n ids).Steps System.anything s s' →
      Stuck n s' ∧ s'.lock_list = s.lock_list ∧ s'.waiting.Perm s.waiting ∧
        ∀ x ∈ s'.replies, x ∈ s.replies := by
  refine ⟨⟨fun h => ?_, fun hle s hreach => ?_⟩, fun s s' hstuck hsteps => hstuck.forever hsteps⟩
  · by_contra hmore
    obtain ⟨s, hreach, hstuck⟩ := exists_stuck hids hn hts (Nat.lt_of_not_le hmore)
    exact h s hreach hstuck
  · have hboth : s.Inv ids ∧ Orderly ts s := by
      refine hreach.invariant (I := fun s => s.Inv ids ∧ Orderly ts s) ?_
        fun s e s' hs huses hstep => ⟨hs.1.step hids hstep, hs.2.step huses hstep⟩
      rintro s rfl
      exact ⟨.start, List.nodup_nil, nofun, nofun, nofun, nofun⟩
    exact hboth.2.not_stuck hboth.1 hn hle

/-- The pool of `rpcs` is enough for six clients with one thread each, and not for seven. -/
theorem pool_suffices_six : (∀ s, (plainSystem 6 (· % 4096)).Reachable
      (Uses [(1, 0), (2, 0), (3, 0), (4, 0), (5, 0), (6, 0)]) s → ¬Stuck 6 s) ∧
    ¬∀ s, (plainSystem 6 (· % 4096)).Reachable
      (Uses [(1, 0), (2, 0), (3, 0), (4, 0), (5, 0), (6, 0), (7, 0)]) s → ¬Stuck 6 s := by
  have hids : ∀ c, c % 4096 ≠ UNLOCKED := by
    intro c
    unfold UNLOCKED
    omega
  refine ⟨(pool_suffices_iff hids (by decide) (by decide)).1.mpr (by decide), fun h => ?_⟩
  have hle := (pool_suffices_iff hids (by decide) (by decide)).1.mp h
  exact absurd hle (by decide)

end SimpleDfs.Lock.Plain
