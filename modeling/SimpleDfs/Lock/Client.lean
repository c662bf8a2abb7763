import SimpleDfs.Base.Count
import SimpleDfs.Lock.Server

/-!
# The caching lock client

`lock_client_cache` of `lock_client_cache.cc`: the records of the locks that a client owns or asks
for, and its threads. A client keeps a lock after its threads released it, until the server sends a
`revoke`; several threads of a client may wait for the same lock, and one of them asks the server.

A step of a thread is what it does between taking and dropping `sync_root`; `Pc` names the places in
between. The revoke handler is different: it calls `lu->dorelease` while it holds `sync_root`, so no
thread can take a step in that time, whereas `release` drops `sync_root` before that call. What
`dorelease` does is left open here, apart from that it returns.
-/

namespace SimpleDfs.Lock

/-- A call or a reply between the clients and the server. -/
inductive Msg where
  /-- `lock_protocol::acquire`, call `xid` of the client. -/
  | acquire (lid : LockId) (id : String) (xid : ℕ)
  /-- The reply to call `xid` of the client, which was an `acquire` of the lock. -/
  | reply (lid : LockId) (id : String) (xid : ℕ) (status : Status)
  /-- `lock_protocol::release`. -/
  | release (lid : LockId) (id : String)
  /-- `rlock_protocol::revoke` to the client. -/
  | revoke (lid : LockId) (id : String)
  /-- `rlock_protocol::retry` to the client. -/
  | retry (lid : LockId) (id : String)
  deriving DecidableEq, Repr

/-- The record of a client for a lock. -/
structure LockInfo where
  /-- The lock is being acquired by a thread. -/
  acquiring : Bool
  /-- The client owns the lock. -/
  owned : Bool
  /-- The server wants the lock back. -/
  revoked : Bool
  /-- The number of threads that wait for the lock. -/
  awaiting_lock : ℕ
  /-- The thread that holds the lock. -/
  holder : ℕ
  deriving DecidableEq, Repr

namespace LockInfo

/-- The holder of a lock that no thread of the client holds. -/
def FREE : ℕ := 0

/-- `pthread_self` of a thread. No thread is `FREE`. -/
def self (t : ℕ) : ℕ := t + 1

/-- The record that `acquire` makes. The fields that the source does not set are zero. -/
def new : LockInfo := ⟨false, false, false, 0, FREE⟩

/-- One more thread waits for the lock. -/
def await (lock : LockInfo) : LockInfo := { lock with awaiting_lock := lock.awaiting_lock + 1 }

/-- The thread `t` takes the lock. -/
def take (lock : LockInfo) (t : ℕ) : LockInfo :=
  { lock with holder := self t, awaiting_lock := lock.awaiting_lock - 1 }

/-- The thread that holds the lock lets it go, and the client gives it back. -/
def giveBack (lock : LockInfo) : LockInfo :=
  { lock with owned := false, revoked := false, acquiring := false, holder := FREE }

end LockInfo

/-- Where a thread is. -/
inductive Pc where
  /-- It is outside of `acquire` and `release`. -/
  | idle
  /-- In `acquire`, the record of the lock exists. -/
  | entered (lid : LockId)
  /-- At the start of `acquire_lock`. -/
  | acquireLock (lid : LockId)
  /-- In call `xid`, the `acquire` that `acquire_lock` makes. -/
  | awaitReply (lid : LockId) (xid : ℕ)
  /-- In `acquire`, back from `acquire_lock`. -/
  | back (lid : LockId)
  /-- It waits until the client owns the lock. -/
  | waitOwned (lid : LockId) (signaled : Bool)
  /-- It waits until no thread of the client holds the lock. -/
  | waitFree (lid : LockId) (signaled : Bool)
  /-- In `release`, in the call of `dorelease`. -/
  | dorelease (lid : LockId)
  /-- In `release`, in the call of the server. -/
  | releasing (lid : LockId)
  deriving DecidableEq, Repr

namespace Pc

/-- The condition variable of a lock is signaled. -/
def signal (lid : LockId) : Pc → Pc
  | waitOwned l b => if l = lid then waitOwned l true else waitOwned l b
  | waitFree l b => if l = lid then waitFree l true else waitFree l b
  | pc => pc

/-- The thread is among those that `awaiting_lock` counts. -/
def Waits (lid : LockId) : Pc → Prop
  | acquireLock l | awaitReply l _ | back l | waitOwned l _ | waitFree l _ => l = lid
  | _ => False

instance (lid : LockId) : DecidablePred (Waits lid)
  | acquireLock l | awaitReply l _ | back l | waitOwned l _ | waitFree l _ =>
    inferInstanceAs (Decidable (l = lid))
  | idle | entered _ | dorelease _ | releasing _ => inferInstanceAs (Decidable False)

/-- The thread is giving the lock back and has not called the server yet. -/
def Flushes (lid : LockId) (pc : Pc) : Prop := pc = dorelease lid

instance (lid : LockId) : DecidablePred (Flushes lid) :=
  fun pc => inferInstanceAs (Decidable (pc = dorelease lid))

end Pc

/-- The state of `lock_client_cache` and of the threads that use it. -/
structure Client where
  /-- The records of the locks. -/
  lock_list : LockId → Option LockInfo
  /-- Where each thread is. -/
  pc : ℕ → Pc
  /-- The locks for which the thread has returned from `acquire` and not called `release`. -/
  held : ℕ → List LockId
  /-- The lock for which a revoke handler, which holds `sync_root`, calls `dorelease`. -/
  handler : Option LockId
  /-- The number of the next call. -/
  xid : ℕ

namespace Client

/-- A client that has just started. -/
def start : Client := ⟨fun _ => none, fun _ => .idle, fun _ => [], none, 0⟩

/-- The client with a record for a lock. -/
def setLock (c : Client) (lid : LockId) (lock : LockInfo) : Client :=
  { c with lock_list := Function.update c.lock_list lid (some lock) }

/-- The client with a thread at another place. -/
def goto (c : Client) (t : ℕ) (pc : Pc) : Client := { c with pc := Function.update c.pc t pc }

/-- `flag.signalAll` of a lock. -/
def signalAll (c : Client) (lid : LockId) : Client := { c with pc := fun t => (c.pc t).signal lid }

/-- The thread returns from `acquire`. -/
def acquired (c : Client) (t : ℕ) (lid : LockId) : Client :=
  { c.goto t .idle with held := Function.update c.held t (lid :: c.held t) }

/-- The thread calls `release`. -/
def leaves (c : Client) (t : ℕ) (lid : LockId) : Client :=
  { c with held := Function.update c.held t ((c.held t).filter (· ≠ lid)) }

/-- `acquire` from where the client owns the lock: the thread takes it, or waits until no thread has
it. -/
def awaitFree (c : Client) (t : ℕ) (lid : LockId) (lock : LockInfo) : Client :=
  if lock.holder = LockInfo.FREE then (c.setLock lid (lock.take t)).acquired t lid
  else c.goto t (.waitFree lid false)

/-- `acquire` from where the thread waits until the client owns the lock. -/
def awaitOwned (c : Client) (t : ℕ) (lid : LockId) (lock : LockInfo) : Client :=
  if lock.owned = false then c.goto t (.waitOwned lid false) else c.awaitFree t lid lock

/-- `lock_client_cache::acquire` up to the point where the record of the lock exists. -/
def acquire (c : Client) (t : ℕ) (lid : LockId) : Option Client :=
  if c.pc t = .idle ∧ c.handler = none then
    match c.lock_list lid with
    | none => some ((c.setLock lid .new).goto t (.entered lid))
    | some _ => some (c.goto t (.entered lid))
  else none

/-- The next step of a thread in `acquire`, with what the client sends. A thread that waits for a
condition runs only when it is signaled; a thread in a call runs when the call returns. -/
def run (c : Client) (id : String) (t : ℕ) : Option (Client × List Msg) :=
  if c.handler = none then
    match c.pc t with
    | .entered lid => do
      let lock ← c.lock_list lid
      let c := c.setLock lid lock.await
      if lock.owned = false ∧ lock.acquiring = false then some (c.goto t (.acquireLock lid), [])
      else some (c.awaitOwned t lid lock.await, [])
    | .acquireLock lid => do
      let lock ← c.lock_list lid
      if lock.acquiring = false ∧ lock.owned = false then
        let c' := (c.setLock lid { lock with acquiring := true }).goto t (.awaitReply lid c.xid)
        some ({ c' with xid := c.xid + 1 }, [.acquire lid id c.xid])
      else some (c.goto t (.back lid), [])
    | .back lid | .waitOwned lid true => do
      let lock ← c.lock_list lid
      some (c.awaitOwned t lid lock, [])
    | .waitFree lid true => do
      -- The loop looks at `holder` only, and not at `owned` again.
      let lock ← c.lock_list lid
      some (c.awaitFree t lid lock, [])
    | _ => none
  else none

/-- `acquire_lock` from where its call returns. -/
def acquireReturns (c : Client) (t : ℕ) (ok : Bool) : Option Client :=
  match c.pc t with
  | .awaitReply lid _ =>
    if c.handler = none then do
      let lock ← c.lock_list lid
      -- A retry came before the reply: the client has the lock already.
      if lock.owned = true then some ((c.signalAll lid).goto t (.back lid))
      else if ok then
        some (((c.setLock lid { lock with acquiring := false, owned := true }).signalAll lid).goto t
          (.back lid))
      else some ((c.setLock lid { lock with acquiring := true, owned := false }).goto t (.back lid))
    else none
  | _ => none

/-- A thread that waits for a condition wakes up without a signal. -/
def wakes (c : Client) (t : ℕ) : Option Client :=
  match c.pc t with
  | .waitOwned lid _ => some (c.goto t (.waitOwned lid true))
  | .waitFree lid _ => some (c.goto t (.waitFree lid true))
  | _ => none

/-- `lock_client_cache::release` under `sync_root`, by a thread that holds the lock. -/
def release (c : Client) (t : ℕ) (lid : LockId) : Option Client :=
  if lid ∈ c.held t ∧ c.pc t = .idle ∧ c.handler = none then do
    let lock ← c.lock_list lid
    let c := c.leaves t lid
    -- While a thread of the client waits, the lock stays, whatever the server wants.
    if lock.awaiting_lock = 0 ∧ lock.revoked = true then
      some ((c.setLock lid lock.giveBack).goto t (.dorelease lid))
    else
      let c := c.setLock lid { lock with holder := LockInfo.FREE }
      some (if lock.awaiting_lock ≠ 0 then c.signalAll lid else c)
  else none

/-- `dorelease` returns in `release`, and the thread calls the server. -/
def released (c : Client) (id : String) (t : ℕ) : Option (Client × Msg) :=
  match c.pc t with
  | .dorelease lid => some (c.goto t (.releasing lid), .release lid id)
  | _ => none

/-- The call of the server returns in `release`. -/
def releaseReturns (c : Client) (t : ℕ) : Option Client :=
  match c.pc t with
  | .releasing _ => some (c.goto t .idle)
  | _ => none

/-- `lock_client_cache::revoke_handler` up to the call of `dorelease`. -/
def revokeHandler (c : Client) (lid : LockId) : Option Client :=
  if c.handler = none then
    match c.lock_list lid with
    | none => some (c.setLock lid { LockInfo.new with revoked := true, owned := true })
    | some lock =>
      if lock.holder = LockInfo.FREE ∧ lock.awaiting_lock = 0 ∧ lock.acquiring = false then
        let lock := { lock with owned := false, revoked := false }
        some { c.setLock lid lock with handler := some lid }
      else some (c.setLock lid { lock with revoked := true })
  else none

/-- `dorelease` returns in the revoke handler, which drops `sync_root` and calls the server. -/
def revokeReleased (c : Client) (id : String) : Option (Client × Msg) :=
  c.handler.map fun lid => ({ c with handler := none }, .release lid id)

/-- `lock_client_cache::retry_handler`. It crashes on a lock that the client has no record of. -/
def retryHandler (c : Client) (lid : LockId) : Option Client :=
  if c.handler = none then do
    let lock ← c.lock_list lid
    some ((c.setLock lid { lock with acquiring := false, owned := true }).signalAll lid)
  else none

/-- What the client knows of a lock. A lock without a record is like one with a new record. -/
def info (c : Client) (lid : LockId) : LockInfo := (c.lock_list lid).getD .new

end Client

end SimpleDfs.Lock
