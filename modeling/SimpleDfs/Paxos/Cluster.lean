import SimpleDfs.Base.System
import SimpleDfs.Paxos.Acceptor
import SimpleDfs.Paxos.Proposer

/-!
# A cluster of Paxos nodes

Every node has an acceptor and a proposer, and is known by its name. The network keeps all calls and
all replies that were ever made: a call may reach its node at any time, or never, and a reply may
come at any time, or never, but is taken only by a proposer that still waits for this very call. So
requests and replies may be lost, delayed and reordered. A proposer that waits no longer (a timeout,
a broken connection, a node that cannot be bound) goes on with `skip`.

A handler of a node that fails a `VERIFY` brings the node down. A commit leaves an upcall to
`config` pending, since `commit_wo` gives up its mutex for it; when it runs is the event `upcall`.
The handler of a `decide` replies after the upcall; here its reply may also come before it.
-/

namespace SimpleDfs.Paxos

/-- An upcall to `config::paxos_commit` that was made and did not run yet. -/
structure Upcall where
  /-- The instance. -/
  inst : ℕ
  /-- The value committed. -/
  value : String
  /-- Whether the node's own proposer waits for the upcall. -/
  proposer : Bool
  deriving DecidableEq, Repr

/-- A node. -/
structure Node where
  /-- The acceptor. -/
  acc : Acceptor
  /-- The proposer. -/
  pro : Proposer
  /-- The upcalls that are pending. -/
  upcalls : List Upcall
  /-- Whether the process was aborted. -/
  down : Bool

namespace Node

/-- A node that starts with the acceptor `acc`. -/
def start (acc : Acceptor) : Node := ⟨acc, Proposer.construct acc.me, [], false⟩

/-- `acceptor::commit` as the proposer calls it, up to the upcall. -/
def commit (n : Node) (inst : ℕ) (value : String) : Node :=
  { n with
    acc := n.acc.commit inst value
    upcalls := if n.acc.commitUpcalls inst then n.upcalls ++ [⟨inst, value, true⟩]
      else n.upcalls }

/-- `proposer::run`, up to the first call. -/
def run (n : Node) (args : RunArgs) : Node := { n with pro := n.pro.run n.acc.n_h args }

/-- The proposer goes on in another phase. -/
def goto (n : Node) (phase : Phase) : Node := { n with pro := n.pro.goto phase }

/-- What the proposer does with the result that it waited for: the rest of the turn of the loop of
`prepare`, `accept` or `decide`. -/
def receive (n : Node) (res : Res) : Node :=
  match n.pro.phase, res with
  | .preparing args (d :: todo) accepts highest_seen v, .prepare res =>
    -- The instance is over: the proposer commits its value and gives up.
    if res.oldinstance then
      (n.commit args.inst res.v_a).goto
        (if n.acc.commitUpcalls args.inst then .committing else .stable)
    else if res.accept then
      -- The value with the highest number that was reported so far is kept.
      if res.n_a.gt highest_seen then
        n.goto (Phase.preparing args todo (accepts ++ [d]) res.n_a res.v_a).settle
      else n.goto (Phase.preparing args todo (accepts ++ [d]) highest_seen v).settle
    else n.goto (Phase.preparing args todo accepts highest_seen v).settle
  | .accepting args v (d :: todo) accepts, .accept r =>
    n.goto (Phase.accepting args v todo (if r then accepts ++ [d] else accepts)).settle
  | .deciding args v (_ :: todo), .decide => n.goto (Phase.deciding args v todo).settle
  | _, _ => n

/-- `decidereq` at a node. -/
def decidereq (n : Node) (arg : DecideArg) : Node :=
  match n.acc.decidereq arg with
  | some acc => { n with
      acc := acc
      upcalls := if n.acc.commitUpcalls arg.inst then n.upcalls ++ [⟨arg.inst, n.acc.v_a, false⟩]
        else n.upcalls }
  | none => { n with down := true }

/-- The handler of a request, with the result that it returns, if it returns. -/
def handle (n : Node) : Req → Node × Option Res
  | .prepare arg => ({ n with acc := (n.acc.preparereq arg).1 },
      some (.prepare (n.acc.preparereq arg).2))
  | .accept arg => ({ n with acc := (n.acc.acceptreq arg).1 },
      some (.accept (n.acc.acceptreq arg).2))
  | .decide arg => (n.decidereq arg,
      if (n.acc.decidereq arg).isSome then some .decide else none)

/-- The `k`-th pending upcall is done. -/
def upcalled (n : Node) (k : ℕ) (u : Upcall) : Node :=
  let n := { n with upcalls := n.upcalls.eraseIdx k }
  if u.proposer then n.goto .stable else n

end Node

/-- A cluster: its nodes, and the calls and replies made so far. -/
structure Cluster where
  /-- The nodes by their names. -/
  node : String → Node
  /-- The calls made so far. -/
  calls : List Call
  /-- The replies made so far. -/
  replies : List Reply

/-- What happens in a cluster. -/
inductive Event where
  /-- `proposer::run` is called at node `p`. -/
  | run (p : String) (args : RunArgs)
  /-- The proposer of node `p` makes its next call. -/
  | send (p : String)
  /-- The proposer of node `p` gives the current call up, or cannot make it. -/
  | skip (p : String)
  /-- The `k`-th call reaches the node that it is for. -/
  | handle (k : ℕ)
  /-- The `k`-th reply reaches the proposer that waits for it. -/
  | reply (k : ℕ)
  /-- The `k`-th pending upcall of node `p` runs. -/
  | upcall (p : String) (k : ℕ)
  deriving DecidableEq, Repr

namespace Cluster

/-- The cluster with another state of node `p`. -/
def set (s : Cluster) (p : String) (n : Node) : Cluster :=
  { s with node := Function.update s.node p n }

/-- The proposer of node `p` makes the call `c`. -/
def send (s : Cluster) (p : String) (c : Call) : Cluster :=
  { s.set p { s.node p with
      pro := { (s.node p).pro with xid := (s.node p).pro.xid + 1, waiting := some c } } with
    calls := s.calls ++ [c] }

/-- The call `c` is handled. -/
def handle (s : Cluster) (c : Call) : Cluster :=
  { s.set c.dst ((s.node c.dst).handle c.req).1 with
    replies := s.replies ++
      (((s.node c.dst).handle c.req).2.map fun res => ⟨c, res⟩).toList }

/-- The cluster after an event, when it is possible. -/
def next (s : Cluster) : Event → Option Cluster
  | .run p args => if (s.node p).down then none else some (s.set p ((s.node p).run args))
  | .send p =>
    if (s.node p).down ∨ (s.node p).pro.waiting.isSome then none
    else (s.node p).pro.request.map fun (d, req) =>
      s.send p ⟨p, (s.node p).pro.xid, d, req⟩
  | .skip p => if (s.node p).down then none
    else some (s.set p ((s.node p).goto (s.node p).pro.phase.skip))
  | .handle k => s.calls[k]?.bind fun c =>
    if (s.node c.dst).down then none else some (s.handle c)
  | .reply k => s.replies[k]?.bind fun r =>
    if (s.node r.call.src).down ∨ (s.node r.call.src).pro.waiting ≠ some r.call then none
    else some (s.set r.call.src ((s.node r.call.src).receive r.res))
  | .upcall p k => (s.node p).upcalls[k]?.bind fun u =>
    if (s.node p).down then none else some (s.set p ((s.node p).upcalled k u))

end Cluster

end SimpleDfs.Paxos
