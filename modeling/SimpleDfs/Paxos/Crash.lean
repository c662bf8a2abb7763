import SimpleDfs.Paxos.Replay
import SimpleDfs.Paxos.Preservation

/-!
# An open instance, with nodes that crash

The cluster of `Cluster.lean`, in which a node may also crash at any time and start again: its
acceptor is constructed from its log file, and its proposer has lost its counter. The calls of a
restarted process carry another nonce, so that it never takes a reply to a call which it made
before; here the number of its next call goes on.

`openSystem k nodes` is about one instance, `k + 1`, that none of `nodes` has committed. `OpenRuns`
are the runs up to the first commit in which every proposer asks `nodes` and has a value, and
`Recordable` says what the log and the counters need besides: names that are words, values of one
line, and a counter that does not wrap to `0`. `OpenInv` is the invariant of these runs; that every
event keeps it is in `Adoption.lean`.

The numbers of a proposer that was restarted are not new. What makes them unique all the same is
that an acceptor promises a number once, and that a proposal is backed by promises which answer
calls of the same run: `Earlier` records that these calls came before the proposal.
-/

namespace SimpleDfs.Paxos

open IStream

/-! ## The runs -/

/-- What happens in a cluster whose nodes crash. -/
inductive CrashEvent where
  /-- An event of the cluster. -/
  | step (e : Event)
  /-- Node `p` crashes, and starts again with the arguments `first` and `value`. -/
  | restart (p : String) (first : Bool) (value : String)
  deriving DecidableEq, Repr

/-- Node `p` crashes and starts again. A log that fails a `VERIFY` keeps it from starting. -/
def Cluster.restart (s : Cluster) (p : String) (first : Bool) (value : String) : Option Cluster :=
  (Acceptor.construct first p value (s.node p).acc.log).map fun acc =>
    s.set p { Node.start acc with
      pro := { Proposer.construct p with xid := (s.node p).pro.xid } }

/-- The cluster after an event or a crash, when it is possible. -/
def Cluster.nextOrRestart (s : Cluster) : CrashEvent → Option Cluster
  | .step e => s.next e
  | .restart p first value => s.restart p first value

/-- The cluster in which instance `k + 1` is open at `nodes`. -/
def openSystem (k : ℕ) (nodes : List String) : System Cluster CrashEvent where
  init s := s.calls = [] ∧ s.replies = [] ∧
    (∀ p, (s.node p).pro.my_n.m = p ∧ (s.node p).pro.phase = .stable ∧
      (s.node p).pro.waiting = none) ∧
    ∀ d ∈ nodes, (s.node d).acc.me = d ∧ (s.node d).acc.instance_h = k ∧
      (s.node d).acc.n_h.n = 0 ∧ (s.node d).acc.n_a.n = 0 ∧ (s.node d).acc.v_a = "" ∧
      Logged (s.node d).acc
  step := Cluster.nextOrRestart

/-- None of `nodes` has committed instance `k + 1`. -/
def Uncommitted (k : ℕ) (nodes : List String) (s : Cluster) : Prop :=
  ∀ d ∈ nodes, (s.node d).acc.instance_h ≤ k

instance (k : ℕ) (nodes : List String) (s : Cluster) : Decidable (Uncommitted k nodes s) :=
  inferInstanceAs (Decidable (∀ d ∈ nodes, (s.node d).acc.instance_h ≤ k))

/-- The arguments of a run for instance `k + 1`. -/
def ForInstance (k : ℕ) (nodes : List String) : CrashEvent → Prop
  | .step (.run _ args) => args.inst = k + 1 ∧ args.cur_nodes = nodes ∧ args.newv ≠ ""
  | _ => True

instance (k : ℕ) (nodes : List String) : ∀ e, Decidable (ForInstance k nodes e)
  | .step (.run _ args) => inferInstanceAs
      (Decidable (args.inst = k + 1 ∧ args.cur_nodes = nodes ∧ args.newv ≠ ""))
  | .step (.send _) | .step (.skip _) | .step (.handle _) | .step (.reply _) | .step (.upcall _ _)
  | .restart _ _ _ => inferInstanceAs (Decidable True)

/-- The runs for instance `k + 1`, up to the first commit of it. -/
def OpenRuns (k : ℕ) (nodes : List String) (s : Cluster) (e : CrashEvent) : Prop :=
  ForInstance k nodes e ∧ Uncommitted k nodes s

instance (k : ℕ) (nodes : List String) (s : Cluster) (e : CrashEvent) :
    Decidable (OpenRuns k nodes s e) := inferInstanceAs (Decidable (_ ∧ _))

/-- A run whose name and value the log can hold, and whose counter does not wrap: not both counters
that `setn` adds one to are at their end. -/
def Recordable (s : Cluster) : CrashEvent → Prop
  | .step (.run p args) => IsWord p ∧ OneLine args.newv ∧
      ((s.node p).acc.n_h.n + 1 ≠ 0 ∨ (s.node p).pro.my_n.n + 1 ≠ 0)
  | _ => True

instance (s : Cluster) : ∀ e, Decidable (Recordable s e)
  | .step (.run p args) => inferInstanceAs (Decidable (IsWord p ∧ OneLine args.newv ∧
      ((s.node p).acc.n_h.n + 1 ≠ 0 ∨ (s.node p).pro.my_n.n + 1 ≠ 0)))
  | .step (.send _) | .step (.skip _) | .step (.handle _) | .step (.reply _) | .step (.upcall _ _)
  | .restart _ _ _ => inferInstanceAs (Decidable True)

/-- The runs for instance `k + 1` that can be recorded. -/
def RecordableRuns (k : ℕ) (nodes : List String) (s : Cluster) (e : CrashEvent) : Prop :=
  OpenRuns k nodes s e ∧ Recordable s e

instance (k : ℕ) (nodes : List String) (s : Cluster) (e : CrashEvent) :
    Decidable (RecordableRuns k nodes s e) := inferInstanceAs (Decidable (_ ∧ _))

/-! ## The invariant -/

/-- A value that the log can hold, and that does not read as "nothing accepted". -/
def Proposable (v : String) : Prop := v ≠ "" ∧ OneLine v

/-- The call `c` was answered with a promise of `b` in instance `i`. -/
def PromisedTo (rs : List Reply) (i : ℕ) (b : PropT) (c : Call) (res : PrepareRes) : Prop :=
  res.accept = true ∧ c.req = .prepare ⟨i, b⟩ ∧ ⟨c, .prepare res⟩ ∈ rs

/-- A promise to a call is a promise of the node called. -/
theorem PromisedTo.promised {rs : List Reply} {i : ℕ} {b : PropT} {c : Call} {res : PrepareRes}
    (h : PromisedTo rs i b c res) : Promised rs c.dst i b res := ⟨h.1, c, rfl, h.2⟩

/-- A promise answers a call. -/
theorem Promised.exists_call {rs : List Reply} {d : String} {i : ℕ} {b : PropT} {res : PrepareRes}
    (h : Promised rs d i b res) : ∃ c, c.dst = d ∧ PromisedTo rs i b c res := by
  obtain ⟨hacc, c, hdst, hreq⟩ := h
  exact ⟨c, hdst, hacc, hreq⟩

/-- A majority of `nodes` promised `b` in answer to calls that `p` made before its call `xid`. -/
def Earlier (nodes : List String) (rs : List Reply) (i : ℕ) (b : PropT) (p : String) (xid : ℕ) :
    Prop :=
  ∃ T, majority nodes T = true ∧ ∀ d ∈ T, ∃ c res, c.dst = d ∧ c.src = p ∧ c.xid < xid ∧
    PromisedTo rs i b c res

/-- The setting in which instance `k + 1` is open at every node. The values of the instances before
it are those of one node, and may differ from node to node. -/
def openSetting (k : ℕ) (nodes : List String) (hist : ℕ → String) : Setting where
  nodes _ := nodes
  proposal _ := Proposable
  base _ := k
  hist := hist
  proposal_ne _ _ h := h.1
  known i d hi T hT := by
    cases T with
    | nil => rw [not_majority_nil] at hT; cases hT
    | cons d' T => exact ⟨d', List.mem_cons_self, hi⟩

/-- What holds of the acceptor `a` of node `d`. -/
structure VoterInv (k : ℕ) (nodes : List String) (rs : List Reply) (d : String) (a : Acceptor) :
    Prop where
  /-- The acceptor has the node's name. -/
  me : a.me = d
  /-- The instance is open. -/
  inst : a.instance_h = k
  /-- The log replays to the state. -/
  logged : Logged a
  /-- The acceptor keeps its promises. -/
  acceptor : AcceptorInv (openSetting k nodes a.values) rs d a
  /-- A number is promised to one call. -/
  once : ∀ b c c' res res', c.dst = d → c'.dst = d → PromisedTo rs (k + 1) b c res →
    PromisedTo rs (k + 1) b c' res' → c = c'

/-- The instance and the number of a call. -/
structure NumberInv (k : ℕ) (c : Call) (inst : ℕ) (n : PropT) : Prop where
  /-- The call is for the open instance. -/
  inst : inst = k + 1
  /-- The number carries the caller's name. -/
  m : n.m = c.src
  /-- Its counter is not `0`. -/
  pos : n.n ≠ 0
  /-- The name is a word. -/
  word : IsWord n.m

/-- What holds of a call. -/
def OpenCall (k : ℕ) (nodes : List String) (rs : List Reply) (c : Call) : Prop :=
  match c.req with
  | .prepare arg => NumberInv k c arg.inst arg.n
  | .accept arg => NumberInv k c arg.inst arg.n ∧ Proposable arg.v ∧
      Backed (fun _ => nodes) rs (k + 1) arg.n arg.v ∧
      Earlier nodes rs (k + 1) arg.n c.src c.xid ∧ ∃ res, Promised rs c.dst (k + 1) arg.n res
  | .decide _ => True

/-- What holds of the loop of `prepare` at node `p`: the nodes in `accepts` promised, in answer to
calls that came after all proposals of `p`, and `v` is the value of the highest report. -/
structure OpenPreparing (k : ℕ) (nodes : List String) (cs : List Call) (rs : List Reply)
    (p : String) (my_n : PropT) (args : RunArgs) (todo accepts : List String) (highest_seen : PropT)
    (v : String) : Prop where
  /-- The name is a word. -/
  word : IsWord p
  /-- The counter is not `0`. -/
  pos : my_n.n ≠ 0
  /-- The run is for the open instance. -/
  inst : args.inst = k + 1
  /-- The run asks `nodes`. -/
  cur_nodes : args.cur_nodes = nodes
  /-- The new value can be proposed. -/
  newv : Proposable args.newv
  /-- The nodes to call. -/
  todo : ∀ d ∈ todo, d ∈ nodes
  /-- The nodes in `accepts` promised after all proposals of `p`. -/
  promised : ∀ d ∈ accepts, d ∈ nodes ∧ ∃ c ∈ cs, ∃ res, c.dst = d ∧ c.src = p ∧
    PromisedTo rs (k + 1) my_n c res ∧ res.n_a ≤ highest_seen ∧
    ∀ c' ∈ cs, ∀ arg, c'.src = p → c'.req = .accept arg → c'.xid < c.xid
  /-- The highest report, if there is one. -/
  highest : highest_seen.n = 0 ∧ v = "" ∨ highest_seen.n ≠ 0 ∧ Proposable v ∧
    ∃ d ∈ accepts, ∃ res, Promised rs d (k + 1) my_n res ∧ res.n_a = highest_seen ∧ res.v_a = v

/-- What holds of the loop of `accept` at node `p`, whose next call is `xid`. -/
structure OpenAccepting (k : ℕ) (nodes : List String) (cs : List Call) (rs : List Reply)
    (p : String) (my_n : PropT) (xid : ℕ) (args : RunArgs) (v : String)
    (todo accepts : List String) : Prop where
  /-- The name is a word. -/
  word : IsWord p
  /-- The counter is not `0`. -/
  pos : my_n.n ≠ 0
  /-- The run is for the open instance. -/
  inst : args.inst = k + 1
  /-- The value can be proposed. -/
  proposal : Proposable v
  /-- The proposal is backed. -/
  backed : Backed (fun _ => nodes) rs (k + 1) my_n v
  /-- The promises answer calls of this run. -/
  earlier : Earlier nodes rs (k + 1) my_n p xid
  /-- The nodes to call promised. -/
  todo : ∀ d ∈ todo, d ∈ nodes ∧ ∃ res, Promised rs d (k + 1) my_n res
  /-- The nodes that accepted. -/
  accepts : ∀ d ∈ accepts, d ∈ nodes
  /-- Nothing else was proposed with the number. -/
  only : ∀ w, Proposed cs (k + 1) my_n w → w = v

/-- What holds of the proposer of node `p` in a phase. -/
def OpenPhase (k : ℕ) (nodes : List String) (cs : List Call) (rs : List Reply) (p : String)
    (my_n : PropT) (xid : ℕ) : Phase → Prop
  | .stable => True
  | .preparing args todo accepts highest_seen v =>
    OpenPreparing k nodes cs rs p my_n args todo accepts highest_seen v
  | .accepting args v todo accepts =>
    OpenAccepting k nodes cs rs p my_n xid args v todo accepts
  | .deciding _ _ todo => ∀ d ∈ todo, d ∈ nodes
  | .committing => True

/-- The call `c` is the last one of its caller. -/
def LastCall (cs : List Call) (c : Call) : Prop :=
  c ∈ cs ∧ ∀ c' ∈ cs, c'.src = c.src → c' = c ∨ c'.xid < c.xid

/-- What holds in every state of a run for instance `k + 1`. -/
structure OpenInv (k : ℕ) (nodes : List String) (s : Cluster) : Prop where
  /-- The acceptors. -/
  voter : ∀ d ∈ nodes, VoterInv k nodes s.replies d (s.node d).acc
  /-- A proposer's numbers carry its name. -/
  name : ∀ p, (s.node p).pro.my_n.m = p
  /-- The calls. -/
  call : ∀ c ∈ s.calls, OpenCall k nodes s.replies c
  /-- The nodes called. -/
  dst : ∀ c ∈ s.calls, c.dst ∈ nodes
  /-- The numbers of the calls. -/
  xid : ∀ c ∈ s.calls, c.xid < (s.node c.src).pro.xid
  /-- A number is proposed with once. -/
  unique : ∀ b v w, Proposed s.calls (k + 1) b v → Proposed s.calls (k + 1) b w → v = w
  /-- Replies are to calls. -/
  reply_call : ∀ r ∈ s.replies, r.call ∈ s.calls
  /-- A promise reports what was proposed, with a lower number. -/
  report : ∀ b c res, PromisedTo s.replies (k + 1) b c res → (res.n_a.n = 0 → res.v_a = "") ∧
    (res.n_a.n ≠ 0 → Proposed s.calls (k + 1) res.n_a res.v_a ∧ res.n_a < b)
  /-- The phases of the proposers. -/
  phase : ∀ p, OpenPhase k nodes s.calls s.replies p (s.node p).pro.my_n (s.node p).pro.xid
    (s.node p).pro.phase
  /-- A proposer waits for its last call, which is the one of its current turn. -/
  waiting : ∀ p c, (s.node p).pro.waiting = some c →
    c.src = p ∧ (s.node p).pro.request = some (c.dst, c.req) ∧ LastCall s.calls c

/-! ## What the messages say -/

section Messages

variable {k : ℕ} {nodes : List String} {s : Cluster} (h : OpenInv k nodes s)
include h

/-- What was accepted was proposed to the node. -/
theorem OpenInv.exists_call {d : String} {i : ℕ} {b : PropT} {v : String}
    (ha : Accepted s.replies d i b v) : ∃ c ∈ s.calls, c.dst = d ∧ c.req = .accept ⟨i, b, v⟩ := by
  obtain ⟨c, hdst, hreq, hmem⟩ := ha
  exact ⟨c, h.reply_call _ hmem, hdst, hreq⟩

/-- What was proposed. -/
theorem OpenInv.proposed {i : ℕ} {b : PropT} {v : String} (hp : Proposed s.calls i b v) :
    i = k + 1 ∧ b.n ≠ 0 ∧ Proposable v ∧ Backed (fun _ => nodes) s.replies (k + 1) b v ∧
      ∃ xid, Earlier nodes s.replies (k + 1) b b.m xid ∧
        ∃ c ∈ s.calls, c.src = b.m ∧ c.xid = xid ∧ c.req = .accept ⟨i, b, v⟩ := by
  obtain ⟨c, hc, hreq⟩ := hp
  have hcall := h.call c hc
  simp only [OpenCall, hreq] at hcall
  obtain ⟨hnum, hprop, hback, hearly, -⟩ := hcall
  exact ⟨hnum.inst, hnum.pos, hprop, hback, c.xid, hnum.m ▸ hearly, c, hc, hnum.m.symm, rfl, hreq⟩

/-- A promise is one of `nodes`, and answers a call for a number whose counter is not `0`. -/
theorem OpenInv.promised {d : String} {i : ℕ} {b : PropT} {res : PrepareRes}
    (hp : Promised s.replies d i b res) : d ∈ nodes ∧ i = k + 1 ∧ b.n ≠ 0 := by
  obtain ⟨-, c, rfl, hreq, hmem⟩ := hp
  have hc := h.reply_call _ hmem
  have hcall := h.call c hc
  simp only [OpenCall, hreq] at hcall
  exact ⟨h.dst c hc, hcall.inst, hcall.pos⟩

/-- An acceptance is one of `nodes`, of a proposal whose counter is not `0`. -/
theorem OpenInv.accepted {d : String} {i : ℕ} {b : PropT} {v : String}
    (ha : Accepted s.replies d i b v) : d ∈ nodes ∧ b.n ≠ 0 := by
  obtain ⟨c, hc, rfl, hreq⟩ := h.exists_call ha
  exact ⟨h.dst c hc, (h.proposed ⟨c, hc, hreq⟩).2.1⟩

/-- The messages obey the rules of voting. -/
theorem OpenInv.votingLaws : VotingLaws (fun _ => nodes) s.calls s.replies (k + 1) where
  unique := h.unique
  accepted d b v ha := by
    obtain ⟨c, hc, -, hreq⟩ := h.exists_call ha
    exact ⟨c, hc, hreq⟩
  pos b v hp := (h.proposed hp).2.1
  backed b v hp := (h.proposed hp).2.2.2.1
  reported d b res hp := by
    obtain ⟨c, -, hto⟩ := hp.exists_call
    exact (h.report b c res hto).2
  report_le d b res c w hp ha :=
    (h.voter d (h.promised hp).1).acceptor.report_le _ b res c w hp ha
  promise_unique d b res res' hp hp' :=
    (h.voter d (h.promised hp).1).acceptor.promise_unique _ b res res' hp hp'

/-- A number with a majority of promises after all proposals of its proposer was not proposed with
yet. -/
theorem OpenInv.not_proposed {p : String} {my_n : PropT} (hm : my_n.m = p) {accepts : List String}
    (hmaj : majority nodes accepts = true)
    (hprom : ∀ d ∈ accepts, d ∈ nodes ∧ ∃ c ∈ s.calls, ∃ res, c.dst = d ∧
      PromisedTo s.replies (k + 1) my_n c res ∧
      ∀ c' ∈ s.calls, ∀ arg, c'.src = p → c'.req = .accept arg → c'.xid < c.xid) (w : String) :
    ¬ Proposed s.calls (k + 1) my_n w := by
  intro hprop
  obtain ⟨-, -, -, -, xid, ⟨T, hT, hearly⟩, c₀, hc₀, hsrc, rfl, hreq⟩ := h.proposed hprop
  -- A node in both majorities promised the number to a call before the proposal and to one after.
  obtain ⟨d, hdT, hd⟩ := exists_of_majority hT hmaj
  obtain ⟨c, res, hdst, -, hlt, hto⟩ := hearly d hdT
  obtain ⟨hnode, c', -, res', hdst', hto', hafter⟩ := hprom d hd
  obtain rfl := (h.voter d hnode).once _ c c' res res' hdst hdst' hto hto'
  have := hafter c₀ hc₀ _ (hsrc.trans hm) hreq
  omega

end Messages

end SimpleDfs.Paxos
