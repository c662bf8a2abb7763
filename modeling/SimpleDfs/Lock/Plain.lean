import Mathlib.Tactic.SplitIfs
import SimpleDfs.Base.Simulation
import SimpleDfs.Base.Tokens
import SimpleDfs.Lock.Table

/-!
# The lock server without a cache

`lock_server` of `lock_server.cc` and `lock_client` of `lock_client.cc`. A client has no locks of
its own: every `acquire` and every `release` is a call of the server, and the handler of an
`acquire` waits on the server until the lock is free. A handler runs on a thread of the dispatch
pool of `rpcs`, which it keeps while it waits.

The server does not know which thread of a client has a lock, only the client, by the number that
its `rpcc` has drawn. A lock that nobody has is marked with the number `UNLOCKED`, so that a client
that draws just this number never has a lock. `plain_refines_table_iff` says that this is all that
can go wrong: without such a client the threads see a single table of locks, no `release` is
refused, and the server never looks for a lock that it does not know.

`flag.wait` returns after 50 milliseconds even without a signal, so a waiting handler may look at
the lock again at any time.
-/

namespace SimpleDfs.Lock.Plain

/-- `lock_protocol::lockid_t`. -/
abbrev LockId := ℕ

/-- The mark of a lock that nobody has. -/
def UNLOCKED : ℕ := 999999999

/-- `struct lock_info`. -/
structure LockInfo where
  /-- How often the lock was acquired. -/
  acquire_count : ℕ
  /-- The client that has the lock. -/
  clt : ℕ
  deriving DecidableEq, Repr

/-- `lock_list`. -/
abbrev LockList := LockId → Option LockInfo

/-- What the server answers. -/
inductive Status where
  /-- The request was granted. -/
  | OK
  /-- The lock is not the client's. -/
  | IOERR
  deriving DecidableEq, Repr

/-- `lock_server::acquire`, from the top or from where it waits: `none` when it has to wait. The
record of a lock for which a handler waits is not removed, so the handler finds it again. -/
def acquire (lock_list : LockList) (clt : ℕ) (lid : LockId) : Option LockList :=
  match lock_list lid with
  | none => some (Function.update lock_list lid (some ⟨1, clt⟩))
  | some lock =>
    if lock.clt = UNLOCKED then
      some (Function.update lock_list lid (some ⟨lock.acquire_count + 1, clt⟩))
    else none

/-- `lock_server::release`, which follows the iterator `end()` for a lock without a record. -/
def release (lock_list : LockList) (clt : ℕ) (lid : LockId) : Option (Status × LockList) :=
  match lock_list lid with
  | none => none
  | some lock =>
    if lock.clt = clt then
      some (.OK, Function.update lock_list lid (some { lock with clt := UNLOCKED }))
    else some (.IOERR, lock_list)

/-- The two calls of the server. -/
inductive Op where
  /-- `lock_protocol::acquire`. -/
  | acquire
  /-- `lock_protocol::release`. -/
  | release
  deriving DecidableEq, Repr

/-- A thread, given by its client and its number. -/
abbrev Thread := ℕ × ℕ

/-- A call of a thread. -/
structure Request where
  /-- What is called. -/
  op : Op
  /-- The thread that waits for the reply. -/
  who : Thread
  /-- The lock. -/
  lid : LockId
  deriving DecidableEq, Repr

/-- A lock in the hands of a thread. -/
structure Holding where
  /-- The thread. -/
  who : Thread
  /-- The lock. -/
  lid : LockId
  deriving DecidableEq, Repr

/-- The server, and the threads of its clients. -/
structure State where
  /-- The locks. -/
  lock_list : LockList
  /-- The calls that have not arrived yet. -/
  net : List Request
  /-- The jobs of the dispatch pool. -/
  queue : List Request
  /-- The calls that a thread of the pool has taken, and whose handler does not have `sync_root`
  yet. -/
  taken : List Request
  /-- The calls whose handler waits for the lock, on a thread of the pool. -/
  waiting : List Request
  /-- The replies that have not arrived yet. -/
  replies : List (Request × Status)
  /-- The locks that threads have: `acquire` has returned and `release` was not called. -/
  held : List Holding
  /-- The server has followed `end()`, or a check of a client has failed. -/
  failed : Bool

/-- What can happen next. -/
inductive Event where
  /-- A thread calls `lock_client::acquire`. -/
  | acquire (who : Thread) (lid : LockId)
  /-- A thread calls `lock_client::release`. -/
  | release (who : Thread) (lid : LockId)
  /-- A call arrives at the server. -/
  | arrive (r : Request)
  /-- A thread of the pool takes the next job. -/
  | take
  /-- A handler gets `sync_root`. -/
  | handle (r : Request)
  /-- A waiting handler looks again. -/
  | look (r : Request)
  /-- A reply arrives. -/
  | reply (x : Request × Status)
  deriving DecidableEq, Repr

namespace State

/-- Nothing has happened yet. -/
def start : State := ⟨fun _ => none, [], [], [], [], [], [], false⟩

/-- The calls that are on their way or at the server. -/
def calls (s : State) : List Request := s.net ++ s.queue ++ s.taken ++ s.waiting

/-- The thread is in a call. -/
def busy (s : State) (who : Thread) : Bool :=
  s.calls.any (·.who = who) || s.replies.any (·.1.who = who)

/-- A handler under `sync_root`. The number of a client is given by `ids`. -/
def run (ids : ℕ → ℕ) (s : State) (r : Request) : State :=
  match r.op with
  | .acquire =>
    match Plain.acquire s.lock_list (ids r.who.1) r.lid with
    | none => { s with waiting := r :: s.waiting }
    | some lock_list => { s with lock_list := lock_list, replies := (r, .OK) :: s.replies }
  | .release =>
    match Plain.release s.lock_list (ids r.who.1) r.lid with
    | none => { s with failed := true }
    | some (status, lock_list) =>
      { s with lock_list := lock_list, replies := (r, status) :: s.replies }

/-- `lock_client::acquire` and `release` from where the call returns, with their checks. -/
def returns (s : State) (x : Request × Status) : State :=
  match x.2, x.1.op with
  | .OK, .acquire => { s with held := ⟨x.1.who, x.1.lid⟩ :: s.held }
  | .OK, .release => s
  | .IOERR, _ => { s with failed := true }

/-- The state after an event, with a pool of `n` threads. A job that does not fit into the queue of
the pool is refused, and comes again. -/
def step (n : ℕ) (ids : ℕ → ℕ) (s : State) (e : Event) : Option State :=
  if s.failed then none
  else
    match e with
    | .acquire who lid =>
      if s.busy who then none else some { s with net := ⟨.acquire, who, lid⟩ :: s.net }
    | .release who lid =>
      if s.busy who = false ∧ ⟨who, lid⟩ ∈ s.held then
        some { s with
          held := s.held.erase ⟨who, lid⟩, net := ⟨.release, who, lid⟩ :: s.net }
      else none
    | .arrive r =>
      if r ∈ s.net ∧ s.queue.length < 100 * n then
        some { s with net := s.net.erase r, queue := s.queue ++ [r] }
      else none
    | .take =>
      match s.queue with
      | [] => none
      | r :: queue =>
        if s.taken.length + s.waiting.length < n then
          some { s with queue := queue, taken := r :: s.taken }
        else none
    | .handle r =>
      if r ∈ s.taken then some ({ s with taken := s.taken.erase r }.run ids r) else none
    | .look r =>
      if r ∈ s.waiting then some ({ s with waiting := s.waiting.erase r }.run ids r) else none
    | .reply x =>
      if x ∈ s.replies then some ({ s with replies := s.replies.erase x }.returns x) else none

end State

/-- The server with a pool of `n` threads, and its clients. -/
def plainSystem (n : ℕ) (ids : ℕ → ℕ) : System State Event where
  init s := s = .start
  step := State.step n ids

/-- What each event does, and when it is possible. -/
inductive Next (n : ℕ) (ids : ℕ → ℕ) (s : State) : Event → State → Prop where
  /-- A thread calls `acquire`. -/
  | acquire {who lid} (hbusy : s.busy who = false) :
      Next n ids s (.acquire who lid) { s with net := ⟨.acquire, who, lid⟩ :: s.net }
  /-- A thread calls `release`. -/
  | release {who lid} (hbusy : s.busy who = false) (hheld : ⟨who, lid⟩ ∈ s.held) :
      Next n ids s (.release who lid) { s with
        held := s.held.erase ⟨who, lid⟩, net := ⟨.release, who, lid⟩ :: s.net }
  /-- A call arrives. -/
  | arrive {r} (hnet : r ∈ s.net) (hroom : s.queue.length < 100 * n) :
      Next n ids s (.arrive r) { s with net := s.net.erase r, queue := s.queue ++ [r] }
  /-- A thread of the pool takes a job. -/
  | take {r queue} (hqueue : s.queue = r :: queue)
      (hfree : s.taken.length + s.waiting.length < n) :
      Next n ids s .take { s with queue := queue, taken := r :: s.taken }
  /-- A handler gets `sync_root`. -/
  | handle {r} (htaken : r ∈ s.taken) :
      Next n ids s (.handle r) ({ s with taken := s.taken.erase r }.run ids r)
  /-- A handler looks again. -/
  | look {r} (hwaiting : r ∈ s.waiting) :
      Next n ids s (.look r) ({ s with waiting := s.waiting.erase r }.run ids r)
  /-- A reply arrives. -/
  | reply {x} (hx : x ∈ s.replies) :
      Next n ids s (.reply x) ({ s with replies := s.replies.erase x }.returns x)

/-- A step is one of these. -/
theorem next_of_step {n : ℕ} {ids : ℕ → ℕ} {s s' : State} {e : Event}
    (h : s.step n ids e = some s') : Next n ids s e s' := by
  unfold State.step at h
  by_cases hfailed : s.failed = true
  · rw [if_pos hfailed] at h
    cases h
  rw [if_neg hfailed] at h
  cases e with
  | acquire who lid =>
    dsimp only at h
    split_ifs at h with hbusy
    cases h
    exact .acquire (Bool.eq_false_iff.mpr hbusy)
  | release who lid =>
    dsimp only at h
    split_ifs at h with hcond
    cases h
    exact .release hcond.1 hcond.2
  | arrive r =>
    dsimp only at h
    split_ifs at h with hcond
    cases h
    exact .arrive hcond.1 hcond.2
  | take =>
    dsimp only at h
    split at h
    · cases h
    next r queue hqueue =>
      split_ifs at h with hfree
      cases h
      exact .take hqueue hfree
  | handle r =>
    dsimp only at h
    split_ifs at h with htaken
    cases h
    exact .handle htaken
  | look r =>
    dsimp only at h
    split_ifs at h with hwaiting
    cases h
    exact .look hwaiting
  | reply x =>
    dsimp only at h
    split_ifs at h with hx
    cases h
    exact .reply hx

/-! ## Who has a lock

The right to a lock is with the thread that has it, in the reply that brings it, or in the call that
gives it back. -/

/-- What a call gives back. -/
def Request.back (r : Request) : Option Holding :=
  if r.op = .release then some ⟨r.who, r.lid⟩ else none

/-- What a reply brings. -/
def granted (x : Request × Status) : Option Holding :=
  if x.1.op = .acquire then some ⟨x.1.who, x.1.lid⟩ else none

/-- The rights to locks. -/
def custodyOf (held : List Holding) (replies : List (Request × Status)) (calls : List Request) :
    List Holding :=
  held ++ (replies.filterMap granted ++ calls.filterMap Request.back)

section CustodyOf

variable {held held' : List Holding} {replies replies' : List (Request × Status)}
  {calls calls' : List Request}

/-- The order does not matter. -/
theorem custodyOf_perm (hheld : held.Perm held') (hreplies : replies.Perm replies')
    (hcalls : calls.Perm calls') :
    (custodyOf held replies calls).Perm (custodyOf held' replies' calls') :=
  hheld.append ((hreplies.filterMap granted).append (hcalls.filterMap Request.back))

/-- One call more. -/
theorem custodyOf_call (r : Request) : (custodyOf held replies (r :: calls)).Perm
    (r.back.toList ++ custodyOf held replies calls) := by
  unfold custodyOf
  cases hback : r.back with
  | none =>
    rw [List.filterMap_cons_none hback]
    exact List.Perm.refl _
  | some h =>
    rw [List.filterMap_cons_some hback]
    exact (List.perm_middle.append_left held).trans List.perm_middle

/-- One reply more. -/
theorem custodyOf_reply (x : Request × Status) : (custodyOf held (x :: replies) calls).Perm
    ((granted x).toList ++ custodyOf held replies calls) := by
  unfold custodyOf
  cases hgranted : granted x with
  | none =>
    rw [List.filterMap_cons_none hgranted]
    exact List.Perm.refl _
  | some h =>
    rw [List.filterMap_cons_some hgranted]
    exact List.perm_middle

end CustodyOf

namespace State

variable {n : ℕ} {ids : ℕ → ℕ} {s s' : State} {r : Request} {x : Request × Status} {who : Thread}
  {lid : LockId}

/-- The rights to locks. -/
def custody (s : State) : List Holding := custodyOf s.held s.replies s.calls

/-- The client that has a lock, by its number. -/
def owner (s : State) (lid : LockId) : Option ℕ :=
  (s.lock_list lid).bind fun lock => if lock.clt = UNLOCKED then none else some lock.clt

/-- A lock can be acquired when nobody has it. -/
theorem acquire_cases (s : State) (clt : ℕ) (lid : LockId) :
    s.owner lid ≠ none ∧ Plain.acquire s.lock_list clt lid = none ∨
      s.owner lid = none ∧ ∃ count, Plain.acquire s.lock_list clt lid =
        some (Function.update s.lock_list lid (some ⟨count, clt⟩)) := by
  unfold owner Plain.acquire
  cases s.lock_list lid with
  | none => exact Or.inr ⟨rfl, 1, rfl⟩
  | some lock =>
    dsimp only [Option.bind_some]
    by_cases hclt : lock.clt = UNLOCKED
    · rw [if_pos hclt, if_pos hclt]
      exact Or.inr ⟨rfl, _, rfl⟩
    · rw [if_neg hclt, if_neg hclt]
      exact Or.inl ⟨Option.some_ne_none _, rfl⟩

/-- The client that has a lock can release it. -/
theorem release_of_owner {clt : ℕ} (h : s.owner lid = some clt) :
    ∃ count, Plain.release s.lock_list clt lid =
      some (.OK, Function.update s.lock_list lid (some ⟨count, UNLOCKED⟩)) := by
  unfold owner at h
  obtain ⟨lock, hlock, hclt⟩ := Option.bind_eq_some_iff.mp h
  split_ifs at hclt
  obtain rfl := Option.some.inj hclt
  refine ⟨lock.acquire_count, ?_⟩
  unfold Plain.release
  rw [hlock]
  exact if_pos rfl

/-- Who has which lock after a record has changed. -/
theorem owner_update (s : State) (lid : LockId) (count clt : ℕ)
    (hlock : s'.lock_list = Function.update s.lock_list lid (some ⟨count, clt⟩)) :
    s'.owner = Function.update s.owner lid (if clt = UNLOCKED then none else some clt) := by
  funext l
  unfold owner
  rw [hlock, Function.update_apply, Function.update_apply]
  by_cases hl : l = lid
  · rw [if_pos hl, if_pos hl]
    rfl
  · rw [if_neg hl, if_neg hl]

/-- A handler gives no lock to a thread: that is for the reply to do. -/
theorem held_run (s : State) (r : Request) : (s.run ids r).held = s.held := by
  unfold run
  cases r.op with
  | acquire =>
    dsimp only
    cases Plain.acquire s.lock_list (ids r.who.1) r.lid <;> rfl
  | release =>
    dsimp only
    cases Plain.release s.lock_list (ids r.who.1) r.lid <;> rfl

/-- A call arrives. -/
theorem calls_arrive (h : r ∈ s.net) :
    s.calls.Perm { s with net := s.net.erase r, queue := s.queue ++ [r] }.calls := by
  have hnet : (s.net ++ s.queue).Perm (r :: (s.net.erase r ++ s.queue)) :=
    (List.perm_cons_erase h).append_right s.queue
  have hqueue : (s.net.erase r ++ (s.queue ++ [r])).Perm (r :: (s.net.erase r ++ s.queue)) :=
    ((List.perm_append_singleton r s.queue).append_left _).trans List.perm_middle
  exact ((hnet.trans hqueue.symm).append_right s.taken).append_right s.waiting

/-- A call is taken by a thread of the pool. -/
theorem calls_take {queue : List Request} (h : s.queue = r :: queue) :
    s.calls.Perm { s with queue := queue, taken := r :: s.taken }.calls := by
  unfold calls
  rw [h]
  have hboth : (s.net ++ r :: queue ++ s.taken).Perm (s.net ++ queue ++ r :: s.taken) :=
    (List.perm_middle.append_right s.taken).trans List.perm_middle.symm
  exact hboth.append_right s.waiting

/-- The call of a handler that gets `sync_root`. -/
theorem calls_taken (h : r ∈ s.taken) :
    s.calls.Perm (r :: { s with taken := s.taken.erase r }.calls) := by
  have htaken : (s.net ++ s.queue ++ s.taken).Perm (r :: (s.net ++ s.queue ++ s.taken.erase r)) :=
    ((List.perm_cons_erase h).append_left _).trans List.perm_middle
  exact htaken.append_right s.waiting

/-- The call of a handler that waits. -/
theorem calls_waiting (h : r ∈ s.waiting) :
    s.calls.Perm (r :: { s with waiting := s.waiting.erase r }.calls) :=
  ((List.perm_cons_erase h).append_left _).trans List.perm_middle

/-- The locks are where the server has them. -/
structure Inv (ids : ℕ → ℕ) (s : State) : Prop where
  /-- Nothing has failed. -/
  safe : s.failed = false
  /-- One right for each lock that a client has. -/
  rights : Tokens.Exclusive Holding.lid (fun h => ids h.who.1) s.custody s.owner
  /-- No request was refused. -/
  ok : ∀ x ∈ s.replies, x.2 = .OK

namespace Inv

/-- A right is passed on. -/
theorem pass (h : s.Inv ids) (hfailed : s'.failed = s.failed) (hlock : s'.lock_list = s.lock_list)
    (hreplies : ∀ x ∈ s'.replies, x ∈ s.replies) (hperm : s.custody.Perm s'.custody) :
    s'.Inv ids := by
  refine ⟨hfailed.trans h.safe, ?_, fun x hx => h.ok x (hreplies x hx)⟩
  have howner : s'.owner = s.owner := by
    unfold owner
    rw [hlock]
  rw [howner]
  exact h.rights.perm hperm

/-- A handler runs, with the right that its call gives back. -/
theorem run (hids : ∀ c, ids c ≠ UNLOCKED) (hsafe : s.failed = false)
    (hok : ∀ x ∈ s.replies, x.2 = .OK)
    (hrights : Tokens.Exclusive Holding.lid (fun h => ids h.who.1) (r.back.toList ++ s.custody)
      s.owner) : (s.run ids r).Inv ids := by
  obtain ⟨op, who, lid⟩ := r
  have hoks : ∀ r' : Request, ∀ x ∈ (r', Status.OK) :: s.replies, x.2 = .OK := by
    intro r' x hx
    rcases List.mem_cons.mp hx with rfl | hx
    · rfl
    · exact hok x hx
  unfold State.run
  cases op with
  | acquire =>
    dsimp only
    rcases s.acquire_cases (ids who.1) lid with ⟨-, hwait⟩ | ⟨hfree, count, hgrant⟩
    · -- The handler waits, and the call gives nothing back.
      rw [hwait]
      refine ⟨hsafe, hrights.perm ((custodyOf_call ⟨.acquire, who, lid⟩).symm.trans ?_), hok⟩
      exact custodyOf_perm (List.Perm.refl _) (List.Perm.refl _) List.perm_middle.symm
    · rw [hgrant]
      refine ⟨hsafe, ?_, hoks _⟩
      rw [owner_update s lid count (ids who.1) rfl, if_neg (hids who.1)]
      have htaken := Tokens.Exclusive.take (t := ⟨who, lid⟩) hrights hfree
      exact htaken.perm (custodyOf_reply (⟨.acquire, who, lid⟩, .OK)).symm
  | release =>
    dsimp only
    -- The call has the right, so the client has the lock.
    obtain ⟨count, hrelease⟩ := release_of_owner hrights.cons_self.1
    rw [hrelease]
    refine ⟨hsafe, ?_, hoks _⟩
    rw [owner_update s lid count UNLOCKED rfl, if_pos rfl]
    exact hrights.give.perm (custodyOf_reply (⟨.release, who, lid⟩, .OK)).symm

/-- A thread calls `release`: the right goes from the thread into the call. -/
theorem releases (h : ⟨who, lid⟩ ∈ s.held) :
    s.custody.Perm { s with
      held := s.held.erase ⟨who, lid⟩, net := ⟨.release, who, lid⟩ :: s.net }.custody := by
  have hheld : s.custody.Perm
      (custodyOf (⟨who, lid⟩ :: s.held.erase ⟨who, lid⟩) s.replies s.calls) :=
    custodyOf_perm (List.perm_cons_erase h) (List.Perm.refl _) (List.Perm.refl _)
  exact hheld.trans (custodyOf_call ⟨.release, who, lid⟩).symm

/-- The reply of an `acquire` arrives: the right goes from the reply to the thread. -/
theorem brings {status : Status} (h : (⟨.acquire, who, lid⟩, status) ∈ s.replies) :
    s.custody.Perm (⟨who, lid⟩ ::
      { s with replies := s.replies.erase (⟨.acquire, who, lid⟩, status) }.custody) := by
  have hreplies : s.custody.Perm (custodyOf s.held
      ((⟨.acquire, who, lid⟩, status) :: s.replies.erase (⟨.acquire, who, lid⟩, status))
      s.calls) :=
    custodyOf_perm (List.Perm.refl _) (List.perm_cons_erase h) (List.Perm.refl _)
  exact hreplies.trans (custodyOf_reply (⟨.acquire, who, lid⟩, status))

/-- A reply arrives. -/
theorem reply (h : s.Inv ids) (hx : x ∈ s.replies) :
    ({ s with replies := s.replies.erase x }.returns x).Inv ids := by
  obtain ⟨⟨op, who, lid⟩, status⟩ := x
  obtain rfl : status = .OK := h.ok _ hx
  cases op with
  | acquire => exact h.pass rfl rfl (fun _ hy => List.mem_of_mem_erase hy) (brings hx)
  | release =>
    refine h.pass rfl rfl (fun _ hy => List.mem_of_mem_erase hy) ?_
    have hreplies : s.custody.Perm (custodyOf s.held
        ((⟨.release, who, lid⟩, .OK) :: s.replies.erase (⟨.release, who, lid⟩, .OK)) s.calls) :=
      custodyOf_perm (List.Perm.refl _) (List.perm_cons_erase hx) (List.Perm.refl _)
    exact hreplies.trans (custodyOf_reply (⟨.release, who, lid⟩, .OK))

/-- A handler runs whose call is at the server. -/
theorem handles (h : s.Inv ids) (hids : ∀ c, ids c ≠ UNLOCKED) {s₀ : State}
    (hlock : s₀.lock_list = s.lock_list) (hfailed : s₀.failed = s.failed)
    (hheld : s₀.held = s.held) (hreplies : s₀.replies = s.replies)
    (hcalls : s.calls.Perm (r :: s₀.calls)) : (s₀.run ids r).Inv ids := by
  have hperm : s.custody.Perm (r.back.toList ++ s₀.custody) := by
    unfold custody
    rw [hheld, hreplies]
    exact (custodyOf_perm (List.Perm.refl _) (List.Perm.refl _) hcalls).trans (custodyOf_call r)
  have howner : s₀.owner = s.owner := by
    unfold owner
    rw [hlock]
  refine run hids (hfailed.trans h.safe) ?_ ?_
  · rw [hreplies]
    exact h.ok
  · rw [howner]
    exact h.rights.perm hperm

/-- Every step keeps the invariant. -/
theorem step (h : s.Inv ids) (hids : ∀ c, ids c ≠ UNLOCKED) {e : Event}
    (hstep : s.step n ids e = some s') : s'.Inv ids := by
  cases next_of_step hstep with
  | acquire =>
    exact h.pass rfl rfl (fun _ hx => hx) (custodyOf_call ⟨.acquire, _, _⟩).symm
  | release _ hheld => exact h.pass rfl rfl (fun _ hx => hx) (releases hheld)
  | arrive hnet =>
    exact h.pass rfl rfl (fun _ hx => hx)
      (custodyOf_perm (List.Perm.refl _) (List.Perm.refl _) (calls_arrive hnet))
  | take hqueue =>
    exact h.pass rfl rfl (fun _ hx => hx)
      (custodyOf_perm (List.Perm.refl _) (List.Perm.refl _) (calls_take hqueue))
  | handle htaken => exact h.handles hids rfl rfl rfl rfl (calls_taken htaken)
  | look hwaiting => exact h.handles hids rfl rfl rfl rfl (calls_waiting hwaiting)
  | reply hx => exact h.reply hx

/-- The invariant holds at first. -/
theorem start : State.start.Inv ids :=
  ⟨rfl, Tokens.Exclusive.nil, nofun⟩

end Inv

end State

/-! ## The table of locks -/

/-- What the threads see of an event. -/
def seen : Event → List (TableEvent Thread LockId)
  | .reply (⟨.acquire, who, lid⟩, .OK) => [.acquired who lid]
  | .release who lid => [.released who lid]
  | _ => []

/-- What the threads see of a step. -/
def observed (_ : State) (e : Event) (_ : State) : List (TableEvent Thread LockId) := seen e

/-- The table has the threads that have the locks. -/
def TableOf (s : State) (table : LockId → Option Thread) : Prop :=
  ∀ who lid, ⟨who, lid⟩ ∈ s.held ↔ table lid = some who

namespace TableOf

variable {n : ℕ} {ids : ℕ → ℕ} {s s' : State} {who : Thread} {lid : LockId}
  {table : LockId → Option Thread}

/-- No thread gets or loses a lock. -/
theorem same (h : TableOf s table) (hheld : s'.held = s.held) : TableOf s' table := by
  intro who lid
  rw [hheld]
  exact h who lid

/-- Nobody has a lock that a reply brings: the right to it is in the reply. -/
theorem not_held (hinv : s.Inv ids) (hx : (⟨.acquire, who, lid⟩, .OK) ∈ s.replies) :
    ∀ y ∈ s.held, y.lid ≠ lid :=
  fun _ hy => (hinv.rights.perm (State.Inv.brings hx)).key_ne (List.mem_append_left _ hy)

/-- A thread gets a lock that nobody has. -/
theorem acquired (h : TableOf s table) (hother : ∀ y ∈ s.held, y.lid ≠ lid)
    (hheld : s'.held = ⟨who, lid⟩ :: s.held) :
    TableOf s' (Function.update table lid (some who)) := by
  intro who' l
  rw [hheld, List.mem_cons, Function.update_apply, Holding.mk.injEq]
  by_cases hl : l = lid
  · subst hl
    rw [if_pos rfl, Option.some.injEq]
    exact ⟨fun hor => (hor.resolve_right fun hmem => hother _ hmem rfl).1.symm,
      fun heq => Or.inl ⟨heq.symm, rfl⟩⟩
  · rw [if_neg hl, ← h who' l]
    exact ⟨fun hor => hor.resolve_left fun heq => hl heq.2, Or.inr⟩

/-- A thread gives a lock back. -/
theorem released (h : TableOf s table) (hinv : s.Inv ids) (hmem : ⟨who, lid⟩ ∈ s.held)
    (hheld : s'.held = s.held.erase ⟨who, lid⟩) :
    TableOf s' (Function.update table lid none) := by
  -- The right to the lock was with the thread, so nobody else has it.
  have hperm : s.custody.Perm
      (⟨who, lid⟩ :: custodyOf (s.held.erase ⟨who, lid⟩) s.replies s.calls) :=
    custodyOf_perm (List.perm_cons_erase hmem) (List.Perm.refl _) (List.Perm.refl _)
  have hother : ∀ y ∈ s.held.erase ⟨who, lid⟩, y.lid ≠ lid :=
    fun y hy => (hinv.rights.perm hperm).key_ne (List.mem_append_left _ hy)
  intro who' l
  rw [hheld, Function.update_apply]
  by_cases hl : l = lid
  · subst hl
    rw [if_pos rfl]
    exact ⟨fun hy => absurd rfl (hother _ hy), nofun⟩
  · have hne : (⟨who', l⟩ : Holding) ≠ ⟨who, lid⟩ := fun heq => hl (Holding.mk.inj heq).2
    rw [if_neg hl, List.mem_erase_of_ne hne, h who' l]

/-- The table follows every step. -/
theorem step (h : TableOf s table) (hinv : s.Inv ids) {e : Event}
    (hstep : s.step n ids e = some s') :
    ∃ table', (lockTable Thread LockId).exec table (observed s e s') = some table' ∧
      TableOf s' table' := by
  have hhidden : s'.held = s.held → ∃ table',
      (lockTable Thread LockId).exec table [] = some table' ∧ TableOf s' table' :=
    fun hheld => ⟨table, rfl, h.same hheld⟩
  cases next_of_step hstep with
  | acquire => exact hhidden rfl
  | release _ hheld =>
    exact ⟨_, lockTable_released ((h _ _).mp hheld), h.released hinv hheld rfl⟩
  | arrive => exact hhidden rfl
  | take => exact hhidden rfl
  | handle => exact hhidden (State.held_run _ _)
  | look => exact hhidden (State.held_run _ _)
  | @reply x hx =>
    obtain ⟨⟨op, who, lid⟩, status⟩ := x
    obtain rfl : status = .OK := hinv.ok _ hx
    cases op with
    | acquire =>
      have hother := not_held hinv hx
      have hnone : table lid = none := Option.eq_none_iff_forall_ne_some.mpr fun a ha =>
        hother ⟨a, lid⟩ ((h a lid).mpr ha) rfl
      exact ⟨_, lockTable_acquired hnone, h.acquired hother rfl⟩
    | release => exact hhidden rfl

end TableOf

/-- The server and its clients follow the table. -/
theorem plain_simulation {ids : ℕ → ℕ} (n : ℕ) (hids : ∀ c, ids c ≠ UNLOCKED) :
    System.Simulation (plainSystem n ids) (lockTable Thread LockId) observed
      fun s table => s.Inv ids ∧ TableOf s table where
  init := by
    rintro s rfl
    refine ⟨fun _ => none, rfl, .start, fun who lid => ⟨fun hmem => ?_, fun hnone => ?_⟩⟩
    · cases hmem
    · cases hnone
  step := by
    rintro s e s' table ⟨hinv, htable⟩ hstep
    obtain ⟨table', hexec, htable'⟩ := htable.step hinv hstep
    exact ⟨table', hexec, hinv.step hids hstep, htable'⟩

/-! ## The client that has drawn `UNLOCKED` -/

section Unlucky

variable {n : ℕ} {ids : ℕ → ℕ} {s : State} {who : Thread} {lid : LockId}

/-- No call is on its way, and no handler is about to run. -/
def State.Quiet (s : State) : Prop :=
  s.failed = false ∧ s.net = [] ∧ s.queue = [] ∧ s.taken = []

/-- A thread gets a lock at once. -/
def gets (who : Thread) (lid : LockId) : List Event :=
  [.acquire who lid, .arrive ⟨.acquire, who, lid⟩, .take, .handle ⟨.acquire, who, lid⟩,
   .reply (⟨.acquire, who, lid⟩, .OK)]

/-- A thread gets a lock at once when nobody has it and a thread of the pool is free. -/
theorem exec_gets (hn : s.waiting.length < n) (hquiet : s.Quiet) (hbusy : s.busy who = false)
    (hfree : s.owner lid = none) :
    ∃ count, (plainSystem n ids).exec s (gets who lid) = some { s with
      lock_list := Function.update s.lock_list lid (some ⟨count, ids who.1⟩)
      held := ⟨who, lid⟩ :: s.held } := by
  obtain ⟨-, hgrant⟩ := (s.acquire_cases (ids who.1) lid).resolve_left fun hwait => hwait.1 hfree
  obtain ⟨count, hgrant⟩ := hgrant
  obtain ⟨lock_list, net, queue, taken, waiting, replies, held, failed⟩ := s
  obtain ⟨hsafe, hnet, hqueue, htaken⟩ := hquiet
  dsimp only at hn hsafe hnet hqueue htaken hgrant
  subst hsafe hnet hqueue htaken
  have hroom : 0 < 100 * n := by omega
  refine ⟨count, ?_⟩
  simp [gets, System.exec, plainSystem, State.step, State.run, State.returns, hgrant, hbusy, hn,
    hroom]

/-- Two threads of a client whose number is `UNLOCKED` get a lock one after the other. -/
theorem exec_twice {c : ℕ} (hn : 0 < n) (hc : ids c = UNLOCKED) :
    ∃ s, (plainSystem n ids).exec .start (gets (c, 0) 0 ++ gets (c, 1) 0) = some s := by
  have hquiet : State.start.Quiet := ⟨rfl, rfl, rfl, rfl⟩
  have hfirst : ∃ count, (plainSystem n ids).exec .start (gets (c, 0) 0) = _ :=
    exec_gets hn hquiet rfl rfl
  obtain ⟨count, hfirst⟩ := hfirst
  rw [System.exec_append, hfirst, Option.bind_some]
  -- The lock looks as if nobody had it.
  have hfree : { State.start with
      lock_list := Function.update State.start.lock_list 0 (some ⟨count, ids c⟩)
      held := [⟨(c, 0), 0⟩] }.owner 0 = none := by
    rw [State.owner_update .start 0 count (ids c) rfl, hc, if_pos rfl, Function.update_self]
  have hsecond : ∃ count', (plainSystem n ids).exec { State.start with
      lock_list := Function.update State.start.lock_list 0 (some ⟨count, ids c⟩)
      held := [⟨(c, 0), 0⟩] } (gets (c, 1) 0) = _ := exec_gets hn hquiet rfl hfree
  obtain ⟨count', hsecond⟩ := hsecond
  exact ⟨_, hsecond⟩

end Unlucky

/-- Without a client whose number is `UNLOCKED`, and only then, what the threads see of any run is a
run of the table: a thread returns from `acquire` only when nobody has the lock, and has it until it
calls `release`. In no run a `release` is refused or the server looks for a lock that it does not
know. -/
theorem plain_refines_table_iff {n : ℕ} (hn : 0 < n) {ids : ℕ → ℕ} :
    (∀ es s, (plainSystem n ids).exec .start es = some s → s.failed = false ∧
      ∃ table, (lockTable Thread LockId).exec (fun _ => none)
          ((plainSystem n ids).observe observed .start es) = some table ∧
        ∀ who lid, ⟨who, lid⟩ ∈ s.held ↔ table lid = some who) ↔
    ∀ c, ids c ≠ UNLOCKED := by
  constructor
  · intro h c hc
    obtain ⟨s, hexec⟩ := exec_twice hn hc
    obtain ⟨-, table, htable, -⟩ := h _ s hexec
    have hseen : (plainSystem n ids).observe observed .start (gets (c, 0) 0 ++ gets (c, 1) 0) =
        [.acquired (c, 0) 0, .acquired (c, 1) 0] :=
      System.observe_eq_flatMap (f := seen) (fun _ _ _ => rfl) hexec
    rw [hseen] at htable
    cases htable
  · intro hids es s hexec
    obtain ⟨table, hinit, hR⟩ := (plain_simulation n hids).init .start rfl
    obtain ⟨table', hexec', hinv, htable⟩ := (plain_simulation n hids).exec hR hexec
    obtain rfl := hinit
    exact ⟨hinv.safe, table', hexec', htable⟩

/-- Clients 1 and 2 use lock 7 one after the other. The call of client 2 waits at the server. -/
def oneAfterTheOther : List Event :=
  gets (1, 0) 7 ++ [.acquire (2, 0) 7, .arrive ⟨.acquire, (2, 0), 7⟩, .take,
    .handle ⟨.acquire, (2, 0), 7⟩, .look ⟨.acquire, (2, 0), 7⟩, .release (1, 0) 7,
    .arrive ⟨.release, (1, 0), 7⟩, .take, .handle ⟨.release, (1, 0), 7⟩,
    .look ⟨.acquire, (2, 0), 7⟩, .reply (⟨.release, (1, 0), 7⟩, .OK),
    .reply (⟨.acquire, (2, 0), 7⟩, .OK)]

/-- With the pool of the source and clients that draw small numbers. -/
theorem plain_refines_table_oneAfterTheOther : ∃ s table,
    (plainSystem 6 (· % 4096)).exec .start oneAfterTheOther = some s ∧
    s.held = [⟨(2, 0), 7⟩] ∧
    (lockTable Thread LockId).exec (fun _ => none)
      [.acquired (1, 0) 7, .released (1, 0) 7, .acquired (2, 0) 7] = some table ∧
    ∀ who lid, ⟨who, lid⟩ ∈ s.held ↔ table lid = some who := by
  have hmap : ((plainSystem 6 (· % 4096)).exec .start oneAfterTheOther).map (·.held) =
      some [⟨(2, 0), 7⟩] := by decide
  have hseen : (plainSystem 6 (· % 4096)).observe observed .start oneAfterTheOther =
      [.acquired (1, 0) 7, .released (1, 0) 7, .acquired (2, 0) 7] := by decide
  have hids : ∀ c, c % 4096 ≠ UNLOCKED := by
    intro c
    unfold UNLOCKED
    omega
  obtain ⟨s, hexec, hheld⟩ := Option.map_eq_some_iff.mp hmap
  obtain ⟨-, table, htable, hholds⟩ :=
    (plain_refines_table_iff (by decide)).mpr hids _ s hexec
  rw [hseen] at htable
  exact ⟨s, table, hexec, hheld, htable, hholds⟩

end SimpleDfs.Lock.Plain
