import SimpleDfs.Extent.System
import SimpleDfs.Yfs.Client

/-!
# File system clients at work

Any number of `yfs_client` clients, each with any number of threads, that share one lock server and
one extent server. A thread calls an operation and makes its calls one after the other; in between,
and while a call is under way, the other threads and clients act. `acquire` and `release` are calls
of the lock client, and `get`, `getattr`, `put` and `remove` are calls of the extent client, which
is in one function at a time. The lock client calls `flush` before it gives a lock back.

What the threads do is recorded (`Note`), the latest first: the locks that they ask for, get and
release, and the accesses to the extents.
-/

namespace SimpleDfs.Yfs

open Lock Extent

/-- An operation that a thread calls. -/
inductive Operation where
  /-- `yfs_client::createFile`. -/
  | createFile (parent : Inum) (buf : Name)
  /-- `yfs_client::createDirectory`. -/
  | createDirectory (parent : Inum) (buf : Name)
  /-- `yfs_client::unlinkFile`. -/
  | unlinkFile (parent : Inum) (buf : Name)
  /-- `yfs_client::lookupResource`. -/
  | lookupResource (parent : Inum) (buf : Name)
  /-- `yfs_client::getDirContents`. -/
  | getDirContents (inum : Inum)
  /-- `yfs_client::readFile`. -/
  | readFile (inum : Inum) (size off : UInt64)
  /-- `yfs_client::getfile`. -/
  | getfile (inum : Inum)
  /-- `yfs_client::getdir`. -/
  | getdir (inum : Inum)
  deriving DecidableEq, Repr

namespace Operation

/-- The file or directory that the operation is called for. -/
def target : Operation → Inum
  | createFile parent _ | createDirectory parent _ | unlinkFile parent _
  | lookupResource parent _ => parent
  | getDirContents inum | readFile inum _ _ | getfile inum | getdir inum => inum

/-- The number that the operation makes from what `random` returns. -/
def number : Operation → Random → Inum
  | createFile _ _ => fileNumber
  | _ => directoryNumber

/-- The calls that the operation makes. What it returns to its caller is left out. -/
def program : Operation → YfsM Unit
  | createFile parent buf => do let _ ← Yfs.createFile parent buf
  | createDirectory parent buf => do let _ ← Yfs.createDirectory parent buf
  | unlinkFile parent buf => do let _ ← Yfs.unlinkFile parent buf
  | lookupResource parent buf => do let _ ← Yfs.lookupResource parent buf
  | getDirContents inum => do let _ ← Yfs.getDirContents inum
  | readFile inum size off => do let _ ← Yfs.readFile inum size off
  | getfile inum => do let _ ← Yfs.getfile inum
  | getdir inum => do let _ ← Yfs.getdir inum

end Operation

/-- What a thread does. -/
inductive Thread where
  /-- It is in no operation. -/
  | idle
  /-- It is in an operation, before the call `q`. -/
  | ready (op : Operation) (q : Call) (next : Answer q → YfsM Unit)
  /-- It is in an operation, in the call `q`. -/
  | waiting (op : Operation) (q : Call) (next : Answer q → YfsM Unit)

namespace Thread

/-- The thread goes on with the rest of an operation. -/
def goOn (op : Operation) : YfsM Unit → Thread
  | .done _ => idle
  | .call q next => ready op q next

/-- The call that the thread is in returns, with the given answer. -/
def returns (q : Call) (a : Answer q) : Thread → Thread
  | waiting op q' next => if h : q = q' then goOn op (next (h ▸ a)) else waiting op q' next
  | thread => thread

end Thread

/-- The call of a function of the extent client. -/
def callOf (eid : Inum) : Op → Call
  | .get => .get eid
  | .getattr => .getattr eid
  | .put buf => .put eid buf

/-- What the functions of the extent client answer from the copy that they found, when the calls
that fetched it returned `ret` and `ret'`. -/
def answer (ret ret' : Extent.Status) (extent : CachedExtentInfo) (eid : Inum) :
    (o : Op) → Answer (callOf eid o)
  | .get => (ret, extent.buf)
  | .getattr => (ret', extent.attr)
  | .put _ => ()

/-- Something that thread `t` of client `c` did. -/
inductive Note where
  /-- It called `acquire`. -/
  | asked (c t : ℕ) (lid : Inum)
  /-- It returned from `acquire`. -/
  | acquired (c t : ℕ) (lid : Inum)
  /-- It called `release`. -/
  | released (c t : ℕ) (lid : Inum)
  /-- It called `put` for an extent other than the one that its operation was called for. -/
  | created (c t : ℕ) (eid : Inum)
  /-- It accessed an extent. -/
  | access (a : Access)
  deriving DecidableEq, Repr

/-- The clients and the servers. -/
structure YfsState where
  /-- The lock clients and the lock server. -/
  lock : LockState
  /-- The extent server. -/
  server : ExtentServer
  /-- The extent client of each client. -/
  clients : ℕ → ExtentClient Worker
  /-- The threads of each client. -/
  threads : ℕ → ℕ → Thread
  /-- What the threads did so far, the latest first. -/
  log : List Note

namespace YfsState

/-- The clients and the servers have just started. -/
def start (now : UInt32) : YfsState :=
  ⟨.start, .construct now, fun _ => .start, fun _ _ => .idle, []⟩

/-- The state with another state of the lock clients and the lock server. -/
def setLock (s : YfsState) (lock : LockState) : YfsState := { s with lock := lock }

/-- The state with another state of one extent client. -/
def setClient (s : YfsState) (c : ℕ) (client : ExtentClient Worker) : YfsState :=
  { s with clients := Function.update s.clients c client }

/-- The state with another state of one thread. -/
def setThread (s : YfsState) (c t : ℕ) (thread : Thread) : YfsState :=
  { s with threads := Function.update s.threads c (Function.update (s.threads c) t thread) }

/-- The thread that has another state. -/
theorem threads_setThread_self (s : YfsState) (c t : ℕ) (thread : Thread) :
    (s.setThread c t thread).threads c t = thread := by
  show Function.update s.threads c _ c t = thread
  rw [Function.update_self, Function.update_self]

/-- The other threads keep their states. -/
theorem threads_setThread_of_ne (s : YfsState) {c t c' t' : ℕ} (h : ¬ (c' = c ∧ t' = t))
    (thread : Thread) : (s.setThread c t thread).threads c' t' = s.threads c' t' := by
  show Function.update s.threads c _ c' t' = s.threads c' t'
  by_cases hc : c' = c
  · subst hc
    rw [Function.update_self, Function.update_of_ne fun ht => h ⟨rfl, ht⟩]
  · rw [Function.update_of_ne hc]

/-- The state with one more note. -/
def note (s : YfsState) (n : Note) : YfsState := { s with log := n :: s.log }

/-- `dorelease` returns to a worker, which calls the lock server. -/
def returns (s : YfsState) (c : ℕ) (w : Worker) : Option YfsState :=
  (s.lock.next (w.returns c)).map s.setLock

/-- A thread calls `get`, `getattr` or `put` of the extent client. -/
def access (s : YfsState) (c t : ℕ) (now : UInt32) (o : Op) (eid : Inum) (op : Operation)
    (next : Answer (callOf eid o) → YfsM Unit) : Option YfsState :=
  if (s.clients c).sync_root = none then
    let got := (s.clients c).access t o eid now
    match got.2 with
    | none => some ((s.setClient c got.1).setThread c t (.waiting op (callOf eid o) next))
    | some extent =>
      some (((s.setClient c got.1).setThread c t
        (.goOn op (next (answer .OK .OK extent eid o)))).note
          (.access (o.log c t eid .OK .OK extent)))
  else none

/-- A thread makes the next call of its operation. -/
def issue (s : YfsState) (c t : ℕ) (now : UInt32) (op : Operation) :
    (q : Call) → (Answer q → YfsM Unit) → Option YfsState
  | .acquire lid, next =>
    (s.lock.next (.acquire c t lid)).map fun lock =>
      ((s.setLock lock).setThread c t (.waiting op (.acquire lid) next)).note (.asked c t lid)
  | .release lid, next =>
    (s.lock.next (.release c t lid)).map fun lock =>
      ((s.setLock lock).setThread c t (.waiting op (.release lid) next)).note (.released c t lid)
  | .get eid, next => s.access c t now .get eid op next
  | .getattr eid, next => s.access c t now .getattr eid op next
  | .put eid buf, next =>
    let s := if eid = op.target then s else s.note (.created c t eid)
    s.access c t now (.put buf) eid op next
  | .remove eid, next =>
    if (s.clients c).sync_root = none then
      let got := (s.clients c).remove t eid
      -- Without a cached copy nothing happens, and the extent keeps its content.
      if got.2 then some ((s.setClient c got.1).setThread c t (.goOn op (next ())))
      else
        some (((s.setClient c got.1).setThread c t (.waiting op (.remove eid) next)).note
          (.access (.remove c t eid)))
    else none
  -- `random` is an event of its own, and a thread that ends its process does nothing any more.
  | .random, _ | .crash, _ => none

/-- The call that a thread is in returns. -/
def answered (s : YfsState) (c t : ℕ) (q : Call) (a : Answer q) : YfsState :=
  s.setThread c t ((s.threads c t).returns q a)

/-- The thread goes on with the answer to its call. -/
theorem answered_eq {s : YfsState} {c t : ℕ} {op : Operation} {q : Call}
    {next : Answer q → YfsM Unit} (h : s.threads c t = .waiting op q next) (a : Answer q) :
    s.answered c t q a = s.setThread c t (.goOn op (next a)) := by
  rw [answered, h, Thread.returns, dif_pos rfl]

end YfsState

/-- The events of the locks that happen by themselves: `acquire` and `release` are called by the
threads, and `dorelease` returns when its flush is done. -/
def Spontaneous : LockEvent → Prop
  | .acquire _ _ _ | .release _ _ _ | .released _ _ | .revokeReleased _ => False
  | _ => True

instance : DecidablePred Spontaneous
  | .acquire _ _ _ | .release _ _ _ | .released _ _ | .revokeReleased _ =>
    inferInstanceAs (Decidable False)
  | .run _ _ | .reply _ _ _ | .callFails _ _ | .wakes _ _ | .releaseReturns _ _ | .revoke _ _
  | .retry _ _ | .serverAcquire _ _ _ | .serverRelease _ _ | .enforcer | .revoker | .lose _ =>
    inferInstanceAs (Decidable True)

/-- What happens next. -/
inductive YfsEvent where
  /-- A thread calls an operation. -/
  | call (c t : ℕ) (op : Operation)
  /-- A thread makes the next call of its operation. -/
  | issue (c t : ℕ) (now : UInt32)
  /-- A thread calls `random`, which returns `r`. -/
  | random (c t : ℕ) (r : Random)
  /-- A thread returns from `acquire` or `release`. -/
  | resume (c t : ℕ)
  /-- An event of the locks. -/
  | lock (e : LockEvent)
  /-- A worker in `dorelease` calls `flush`. -/
  | flush (c : ℕ) (w : Worker) (eid : Inum)
  /-- The extent server executes the call that a client is in. -/
  | rpc (c : ℕ) (now : UInt32)
  /-- The function of the extent client that a client is in returns. -/
  | finish (c : ℕ) (now : UInt32)
  deriving DecidableEq, Repr

namespace YfsState

/-- The state after an event, when it is possible. -/
def next (s : YfsState) : YfsEvent → Option YfsState
  | .call c t op =>
    match s.threads c t with
    | .idle => some (s.setThread c t (.goOn op op.program))
    | _ => none
  | .issue c t now =>
    match s.threads c t with
    | .ready op q next => s.issue c t now op q next
    | _ => none
  | .random c t r =>
    match s.threads c t with
    | .ready op .random next => some (s.setThread c t (.goOn op (next r)))
    | _ => none
  | .resume c t =>
    match s.threads c t with
    | .waiting op (.acquire lid) next =>
      if lid ∈ (s.lock.clients c).held t ∧ (s.lock.clients c).pc t = .idle then
        some ((s.setThread c t (.goOn op (next ()))).note (.acquired c t lid))
      else none
    | .waiting op (.release _) next =>
      if (s.lock.clients c).pc t = .idle then some (s.setThread c t (.goOn op (next ()))) else none
    | _ => none
  | .lock e => if Spontaneous e then (s.lock.next e).map s.setLock else none
  | .flush c w eid =>
    if w.GivesBack (s.lock.clients c) eid ∧ (s.clients c).sync_root = none then
      let got := (s.clients c).flush w eid
      if got.2 then (s.setClient c got.1).returns c w else some (s.setClient c got.1)
    else none
  | .rpc c now =>
    ((s.clients c).rpc s.server now).map fun got =>
      let s' := { s.setClient c got.1 with server := got.2 }
      match (s.clients c).sync_root with
      -- `remove` returns after its call, the other functions go on.
      | some (.remove t eid) => s'.answered c t (.remove eid) ()
      | _ => s'
  | .finish c now =>
    match (s.clients c).sync_root with
    | some (.fetched t o eid ret buf ret' attr) =>
      let extent : CachedExtentInfo := ⟨false, attr, buf⟩
      let client := ((s.clients c).install eid (o.apply now extent)).goto none
      some (((s.setClient c client).answered c t (callOf eid o) (answer ret ret' extent eid o)).note
        (.access (o.log c t eid ret ret' extent)))
    | some (.flushed w eid) => (s.setClient c (((s.clients c).erase eid).goto none)).returns c w
    | _ => none

end YfsState

/-- The clients and the servers from the start on. -/
def yfsSystem : System YfsState YfsEvent where
  init s := ∃ now, s = .start now
  step := YfsState.next

end SimpleDfs.Yfs
