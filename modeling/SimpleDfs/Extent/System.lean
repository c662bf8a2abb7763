import SimpleDfs.Lock.Custody
import SimpleDfs.Extent.Client

/-!
# Extent clients behind locks

Any number of clients, each with a `lock_client_cache` and an `extent_client`, one lock server and
one extent server. The `lock_releaser` of `yfs_client.cc` flushes the extent when its lock is given
back: `dorelease` is `extent_client::flush` of the extent with the number of the lock. The threads
call the extent client only for extents whose lock they hold.

The calls of the extent server are executed once and return; any time may pass in between, in which
other clients act. The accesses are recorded in the order in which they take place, which for the
accesses to one extent is the order in which the threads held its lock.
-/

namespace SimpleDfs.Extent

open Lock

/-- An access to an extent by thread `t` of client `c`. -/
inductive Access where
  /-- `get` returned a status and a content. -/
  | get (c t : ℕ) (eid : ExtentId) (ret : Status) (buf : Buf)
  /-- `getattr` returned a status and the attributes. -/
  | getattr (c t : ℕ) (eid : ExtentId) (ret : Status) (attr : Attr)
  /-- `put` wrote a content and returned a status. -/
  | put (c t : ℕ) (eid : ExtentId) (ret : Status) (buf : Buf)
  /-- `remove` gave up an extent that was cached. -/
  | remove (c t : ℕ) (eid : ExtentId)
  deriving DecidableEq, Repr

/-- The access that a function made when it returns. It found the copy `extent`; the calls that
fetched it returned `ret` and `ret'`, of which `get` returns the first one, `getattr` and `put` the
second one. -/
def Op.log (op : Op) (c t : ℕ) (eid : ExtentId) (ret ret' : Status) (extent : CachedExtentInfo) :
    Access :=
  match op with
  | get => .get c t eid ret extent.buf
  | getattr => .getattr c t eid ret' extent.attr
  | put buf => .put c t eid ret' buf

/-- The content of the most recent `put` of an extent, from its accesses with the latest one first,
unless it was removed since. -/
def lastPut (eid : ExtentId) : List Access → Option Buf
  | [] => none
  | .get _ _ _ _ _ :: earlier | .getattr _ _ _ _ _ :: earlier => lastPut eid earlier
  | .put _ _ e _ buf :: earlier => if e = eid then some buf else lastPut eid earlier
  | .remove _ _ e :: earlier => if e = eid then none else lastPut eid earlier

/-- The clients, the servers and the accesses so far. -/
structure CacheState where
  /-- The lock clients and the lock server. -/
  lock : LockState
  /-- The extent server. -/
  server : ExtentServer
  /-- The extent client of each lock client. -/
  clients : ℕ → ExtentClient Worker
  /-- The accesses so far, the latest one first. -/
  history : List Access

namespace CacheState

/-- The clients have just started, with some extents at the server. -/
def start (server : ExtentServer) : CacheState := ⟨.start, server, fun _ => .start, []⟩

/-- The state with another state of one extent client. -/
def setClient (s : CacheState) (c : ℕ) (client : ExtentClient Worker) : CacheState :=
  { s with clients := Function.update s.clients c client }

/-- Nothing changes when the client stays as it is. -/
theorem setClient_self (s : CacheState) (c : ℕ) : s.setClient c (s.clients c) = s := by
  unfold setClient
  rw [Function.update_eq_self]

/-- The state with one more access. -/
def record (s : CacheState) (a : Access) : CacheState := { s with history := a :: s.history }

/-- The thread can call the extent client for an extent: it holds the lock and does nothing else,
and `sync_root` is free. -/
def MayCall (s : CacheState) (c t : ℕ) (eid : ExtentId) : Prop :=
  Holds s.lock c t eid ∧ (s.lock.clients c).pc t = .idle ∧ (s.clients c).sync_root = none

instance (s : CacheState) (c t : ℕ) (eid : ExtentId) : Decidable (s.MayCall c t eid) :=
  inferInstanceAs (Decidable (eid ∈ (s.lock.clients c).held t ∧ _ ∧ _))

end CacheState

/-- The thread that called the function, if it was a thread. -/
def Place.thread? : Place Worker → Option ℕ
  | get t _ _ | getattr t _ _ _ _ | fetched t _ _ _ _ _ _ | remove t _ => some t
  | flush _ _ _ | flushed _ _ => none

namespace CacheState

/-- The thread is in a function of the extent client. -/
def Busy (s : CacheState) (c t : ℕ) : Prop := (s.clients c).sync_root.bind Place.thread? = some t

instance (s : CacheState) (c t : ℕ) : Decidable (s.Busy c t) :=
  inferInstanceAs (Decidable ((s.clients c).sync_root.bind Place.thread? = some t))

/-- The events of the locks that can happen by themselves: a thread in a function of the extent
client calls neither `acquire` nor `release`, and `dorelease` returns when its flush is done. -/
def Allows (s : CacheState) : LockEvent → Prop
  | .acquire c t _ | .release c t _ => ¬ s.Busy c t
  | .released _ _ | .revokeReleased _ => False
  | _ => True

instance (s : CacheState) : ∀ e, Decidable (s.Allows e)
  | .acquire c t _ | .release c t _ => inferInstanceAs (Decidable (¬ s.Busy c t))
  | .released _ _ | .revokeReleased _ => inferInstanceAs (Decidable False)
  | .run _ _ | .reply _ _ _ | .callFails _ _ | .wakes _ _ | .releaseReturns _ _ | .revoke _ _
  | .retry _ _ | .serverAcquire _ _ _ | .serverRelease _ _ | .enforcer | .revoker | .lose _ =>
    inferInstanceAs (Decidable True)

/-- `dorelease` returns to a worker, which calls the lock server. -/
def returns (s : CacheState) (c : ℕ) (w : Worker) : Option CacheState :=
  (s.lock.next (w.returns c)).map fun lock => { s with lock := lock }

end CacheState

/-- What happens next. -/
inductive CacheEvent where
  /-- An event of the locks. -/
  | lock (e : LockEvent)
  /-- A thread calls `get`, `getattr` or `put`. -/
  | access (c t : ℕ) (op : Op) (eid : ExtentId) (now : UInt32)
  /-- A thread calls `remove`. -/
  | remove (c t : ℕ) (eid : ExtentId)
  /-- A worker in `dorelease` calls `flush`. -/
  | flush (c : ℕ) (w : Worker) (eid : ExtentId)
  /-- The extent server executes the call that a client is in. -/
  | rpc (c : ℕ) (now : UInt32)
  /-- The function that a client is in returns. -/
  | finish (c : ℕ) (now : UInt32)
  deriving DecidableEq, Repr

/-- The state after an event, when it is possible. -/
def CacheState.next (s : CacheState) : CacheEvent → Option CacheState
  | .lock e => if s.Allows e then (s.lock.next e).map fun lock => { s with lock := lock } else none
  | .access c t op eid now =>
    if s.MayCall c t eid then
      let (client, found) := (s.clients c).access t op eid now
      match found with
      | none => some (s.setClient c client)
      | some extent => some ((s.setClient c client).record (op.log c t eid .OK .OK extent))
    else none
  | .remove c t eid =>
    if s.MayCall c t eid then
      let (client, done) := (s.clients c).remove t eid
      -- Without a cached copy nothing happens, and the extent keeps its content.
      if done then some (s.setClient c client)
      else some ((s.setClient c client).record (.remove c t eid))
    else none
  | .flush c w eid =>
    if w.GivesBack (s.lock.clients c) eid ∧ (s.clients c).sync_root = none then
      let (client, done) := (s.clients c).flush w eid
      if done then (s.setClient c client).returns c w else some (s.setClient c client)
    else none
  | .rpc c now =>
    ((s.clients c).rpc s.server now).map fun (client, server) =>
      { s.setClient c client with server := server }
  | .finish c now =>
    match (s.clients c).sync_root with
    | some (.fetched t op eid ret buf ret' attr) =>
      let extent : CachedExtentInfo := ⟨false, attr, buf⟩
      let client := ((s.clients c).install eid (op.apply now extent)).goto none
      some ((s.setClient c client).record (op.log c t eid ret ret' extent))
    | some (.flushed w eid) => (s.setClient c (((s.clients c).erase eid).goto none)).returns c w
    | _ => none

/-- The clients and the servers from the start on. -/
def cacheSystem : System CacheState CacheEvent where
  init s := ∃ server, s = .start server
  step := CacheState.next

end SimpleDfs.Extent
