import SimpleDfs.Paxos.Protocol

/-!
# The proposer

`proposer` of `paxos.cc`. A run of the proposer is a sequence of three loops, over `cur_nodes`, over
the nodes that promised, and over the nodes that accepted. Each turn of a loop makes one call and
waits for its result, and between turns other threads run, so that a proposer is the phase it is in
and the call that it waits for. What happens between two calls is one step: `Phase.settle` is the
code between the loops.

`run` returns at once when another run is on. A run that hears of an old instance commits it at its
own acceptor, and is over when the upcall of this commit returns (`Phase.committing`).
-/

namespace SimpleDfs.Paxos

/-- The arguments of `proposer::run`. -/
structure RunArgs where
  /-- The instance. -/
  inst : ℕ
  /-- The nodes to ask. -/
  cur_nodes : List String
  /-- The value to propose when no other one was accepted. -/
  newv : String
  deriving DecidableEq, Repr

/-- The requests of the three loops. -/
inductive Req where
  /-- `preparereq`. -/
  | prepare (arg : PrepareArg)
  /-- `acceptreq`. -/
  | accept (arg : AcceptArg)
  /-- `decidereq`. -/
  | decide (arg : DecideArg)
  deriving DecidableEq, Repr

/-- The results of the requests. -/
inductive Res where
  /-- The result of `preparereq`. -/
  | prepare (res : PrepareRes)
  /-- The result of `acceptreq`. -/
  | accept (r : Bool)
  /-- The result of `decidereq`, which carries nothing. -/
  | decide
  deriving DecidableEq, Repr

/-- A call of one node to another. -/
structure Call where
  /-- The caller. -/
  src : String
  /-- The number of the call at its caller. -/
  xid : ℕ
  /-- The node called. -/
  dst : String
  /-- The request. -/
  req : Req
  deriving DecidableEq, Repr

/-- The reply to a call. -/
structure Reply where
  /-- The call. -/
  call : Call
  /-- Its result. -/
  res : Res
  deriving DecidableEq, Repr

/-- Where a proposer is in `run`, with the local variables that are live there. The nodes that a
loop has not called yet are `todo`. -/
inductive Phase where
  /-- No run is on. -/
  | stable
  /-- The loop of `prepare`. -/
  | preparing (args : RunArgs) (todo accepts : List String) (highest_seen : PropT) (v : String)
  /-- The loop of `accept`. -/
  | accepting (args : RunArgs) (v : String) (todo accepts : List String)
  /-- The loop of `decide`. -/
  | deciding (args : RunArgs) (v : String) (todo : List String)
  /-- The upcall of a commit of an old instance. -/
  | committing
  deriving DecidableEq, Repr

/-- The code of `run` between its loops: when a loop is done, the next one starts or the run is
over. -/
def Phase.settle : Phase → Phase
  | preparing args [] accepts _ v =>
    -- A value that a node reported takes the place of the proposer's own.
    if majority args.cur_nodes accepts then
      accepting args (if v.length = 0 then args.newv else v) accepts []
    else stable
  | accepting args v [] accepts =>
    if majority args.cur_nodes accepts then deciding args v accepts else stable
  | deciding _ _ [] => stable
  | phase => phase

/-- `continue`: the loop goes on to the next node. -/
def Phase.skip : Phase → Phase
  | preparing args (_ :: todo) accepts highest_seen v =>
    (preparing args todo accepts highest_seen v).settle
  | accepting args v (_ :: todo) accepts => (accepting args v todo accepts).settle
  | deciding args v (_ :: todo) => (deciding args v todo).settle
  | phase => phase

/-- `proposer`, with the call that it waits for. -/
structure Proposer where
  /-- The number of the last proposal. -/
  my_n : PropT
  /-- The number of the next call. -/
  xid : ℕ
  /-- Where the proposer is; it is `stable` when no run is on. -/
  phase : Phase
  /-- The call whose result the proposer waits for. -/
  waiting : Option Call

namespace Proposer

/-- `proposer::proposer`. -/
def construct (me : String) : Proposer := ⟨⟨0, me⟩, 0, .stable, none⟩

/-- `proposer::setn`, with the acceptor's `n_h`. -/
def setn (pro : Proposer) (n_h : PropT) : PropT :=
  { pro.my_n with n := if n_h.n + 1 > pro.my_n.n + 1 then n_h.n + 1 else pro.my_n.n + 1 }

/-- `proposer::run`, up to the first call. -/
def run (pro : Proposer) (n_h : PropT) (args : RunArgs) : Proposer :=
  if pro.phase = .stable then
    { pro with
      my_n := pro.setn n_h
      phase := (Phase.preparing args args.cur_nodes [] ⟨0, ""⟩ "").settle
      waiting := none }
  else pro

/-- The call that the current turn of the loop makes: the node and the request. -/
def request (pro : Proposer) : Option (String × Req) :=
  match pro.phase with
  | .preparing args (d :: _) _ _ _ => some (d, .prepare ⟨args.inst, pro.my_n⟩)
  | .accepting args v (d :: _) _ => some (d, .accept ⟨args.inst, pro.my_n, v⟩)
  | .deciding args v (d :: _) => some (d, .decide ⟨args.inst, v⟩)
  | _ => none

/-- The proposer goes on in another phase. -/
def goto (pro : Proposer) (phase : Phase) : Proposer := { pro with phase := phase, waiting := none }

/-- The counter of a new proposal is above the last one, unless it overflows. -/
theorem lt_setn {pro : Proposer} (h : pro.my_n.n + 1 ≠ 0) (n_h : PropT) :
    pro.my_n.n.toNat < (pro.setn n_h).n.toNat := by
  -- The sum wraps only to `0`.
  have hnext : (pro.my_n.n + 1).toNat = pro.my_n.n.toNat + 1 := by
    rw [UInt32.toNat_add, UInt32.toNat_one]
    have hne : (pro.my_n.n.toNat + 1) % 2 ^ 32 ≠ 0 := by
      intro h0
      apply h
      rw [← UInt32.toNat_inj, UInt32.toNat_add, UInt32.toNat_one, h0]
      rfl
    have := pro.my_n.n.toNat_lt
    omega
  unfold setn
  dsimp only
  split_ifs with hgt
  · have := UInt32.lt_iff_toNat_lt.mp hgt
    omega
  · omega

end Proposer

end SimpleDfs.Paxos
