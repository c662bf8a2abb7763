import SimpleDfs.Base.System
import SimpleDfs.Lock.Client

/-!
# Lock clients and the lock server

Any number of `lock_client_cache` clients, each with any number of threads, and one
`lock_server_cache`, with the calls and replies between them. A message in flight is delivered at
most once, in any order, or lost. A call may also return an error, in which case its reply is lost.

A thread calls `release` only for a lock that it holds; apart from that the threads may call
`acquire` and `release` as they like, for any number of locks.

The server's threads are less restricted here than in the source: the revoker does not wait for one
`revoke` to return before it sends the next, and the enforcer may pass over the locks in between.
-/

namespace SimpleDfs.Lock

/-- The id of the client that listens on a port. -/
def clientId (port : ℕ) : String := "127.0.0.1:" ++ toString port

/-- Different ports are different clients. -/
@[simp] theorem clientId_inj {c c' : ℕ} : clientId c = clientId c' ↔ c = c' := by
  constructor
  · intro h
    have hport : toString c = toString c' := (String.append_right_inj "127.0.0.1:").mp h
    -- The port can be read back from its digits.
    have hdigits := congrArg (fun s => Nat.ofDigitChars 10 s.toList 0) hport
    simpa only [Nat.toString_eq_ofList_toDigits, String.toList_ofList,
      Nat.ofDigitChars_ten_toDigits] using hdigits
  · rintro rfl
    rfl

/-- The holder of a free lock is no client. -/
theorem clientId_ne_free (c : ℕ) : clientId c ≠ LockServer.FREE := by
  intro h
  have hchars := congrArg (fun s => s.toList.head?) h
  simp [clientId, LockServer.FREE] at hchars

/-- The clients, by their ports, the server and the messages in flight. -/
structure LockState where
  /-- The server. -/
  server : LockServer
  /-- The client that listens on each port. -/
  clients : ℕ → Client
  /-- The messages in flight. -/
  msgs : List Msg

namespace LockState

/-- Nothing has happened yet. -/
def start : LockState := ⟨⟨∅, []⟩, fun _ => .start, []⟩

/-- The state with another state of one client. -/
def setClient (s : LockState) (c : ℕ) (client : Client) : LockState :=
  { s with clients := Function.update s.clients c client }

/-- The state with one message more in flight. -/
def send (s : LockState) (m : Msg) : LockState := { s with msgs := m :: s.msgs }

/-- The state with one message less in flight. -/
def take (s : LockState) (m : Msg) : LockState := { s with msgs := s.msgs.erase m }

end LockState

/-- What happens next. A client is given by its port. -/
inductive LockEvent where
  /-- A thread calls `acquire`. -/
  | acquire (c t : ℕ) (lid : LockId)
  /-- A thread in `acquire` takes its next step. -/
  | run (c t : ℕ)
  /-- The reply to the call of a thread arrives. -/
  | reply (c t : ℕ) (status : Status)
  /-- The call of a thread returns an error. -/
  | callFails (c t : ℕ)
  /-- A thread wakes up without a signal. -/
  | wakes (c t : ℕ)
  /-- A thread calls `release`. -/
  | release (c t : ℕ) (lid : LockId)
  /-- `dorelease` returns in `release`. -/
  | released (c t : ℕ)
  /-- The call of the server returns in `release`. -/
  | releaseReturns (c t : ℕ)
  /-- A `revoke` arrives. -/
  | revoke (c : ℕ) (lid : LockId)
  /-- `dorelease` returns in a revoke handler. -/
  | revokeReleased (c : ℕ)
  /-- A `retry` arrives. -/
  | retry (c : ℕ) (lid : LockId)
  /-- An `acquire` arrives at the server. -/
  | serverAcquire (lid : LockId) (id : String) (xid : ℕ)
  /-- A `release` arrives at the server. -/
  | serverRelease (lid : LockId) (id : String)
  /-- The enforcer looks at all locks. -/
  | enforcer
  /-- The revoker sends a request. -/
  | revoker
  /-- A message is lost. -/
  | lose (m : Msg)
  deriving DecidableEq, Repr

/-- The state after an event, when it is possible. -/
def LockState.next (s : LockState) : LockEvent → Option LockState
  | .acquire c t lid => ((s.clients c).acquire t lid).map (s.setClient c)
  | .run c t =>
    ((s.clients c).run (clientId c) t).map fun (client, out) =>
      { s.setClient c client with msgs := out ++ s.msgs }
  | .reply c t status =>
    match (s.clients c).pc t with
    | .awaitReply lid xid =>
      if .reply lid (clientId c) xid status ∈ s.msgs then
        ((s.clients c).acquireReturns t (status == .OK)).map
          ((s.take (.reply lid (clientId c) xid status)).setClient c)
      else none
    | _ => none
  | .callFails c t => ((s.clients c).acquireReturns t false).map (s.setClient c)
  | .wakes c t => ((s.clients c).wakes t).map (s.setClient c)
  | .release c t lid => ((s.clients c).release t lid).map (s.setClient c)
  | .released c t =>
    ((s.clients c).released (clientId c) t).map fun (client, m) => (s.send m).setClient c client
  | .releaseReturns c t => ((s.clients c).releaseReturns t).map (s.setClient c)
  | .revoke c lid =>
    if .revoke lid (clientId c) ∈ s.msgs then
      ((s.clients c).revokeHandler lid).map ((s.take (.revoke lid (clientId c))).setClient c)
    else none
  | .revokeReleased c =>
    ((s.clients c).revokeReleased (clientId c)).map fun (client, m) => (s.send m).setClient c client
  | .retry c lid =>
    if .retry lid (clientId c) ∈ s.msgs then
      ((s.clients c).retryHandler lid).map ((s.take (.retry lid (clientId c))).setClient c)
    else none
  | .serverAcquire lid id xid =>
    if .acquire lid id xid ∈ s.msgs then
      let (status, server) := s.server.acquire lid id
      some { (s.take (.acquire lid id xid)).send (.reply lid id xid status) with server := server }
    else none
  | .serverRelease lid id =>
    if .release lid id ∈ s.msgs then
      (s.server.release lid id).map fun (server, holder) =>
        match holder with
        | none => { s.take (.release lid id) with server := server }
        | some holder =>
          { (s.take (.release lid id)).send (.retry lid holder) with server := server }
    else none
  | .enforcer => some { s with server := s.server.enforcer }
  | .revoker =>
    s.server.revoker.map fun (request, server) =>
      { s.send (.revoke request.lid request.holder) with server := server }
  | .lose m => if m ∈ s.msgs then some (s.take m) else none

/-- The clients and the server from the start on. -/
def lockSystem : System LockState LockEvent where
  init s := s = .start
  step := LockState.next

/-- The thread `t` of client `c` is between the return of `acquire` and its `release`. -/
def Holds (s : LockState) (c t : ℕ) (lid : LockId) : Prop := lid ∈ (s.clients c).held t

end SimpleDfs.Lock
