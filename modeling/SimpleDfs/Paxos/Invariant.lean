import SimpleDfs.Paxos.History

/-!
# The invariant of a cluster

Under the guard `InStep` the open instance of an acceptor is the one that its promises and its
accepted proposal are about: proposers of an instance ask the same nodes, and a prepare or an accept
for another instance than the next one arrives only where it is refused. `Inv` collects what then
holds between the acceptors, the proposers and the messages; `inv_next` says that every event keeps
it. It makes the messages of every instance a lawful history of ballots (`Inv.lawful`).
-/

namespace SimpleDfs.Paxos

/-! ## The runs -/

/-- The cluster of a setting. Every node has the instances decided before, and nothing is under
way. -/
def paxosSystem (P : Setting) : System Cluster Event where
  init s := s.calls = [] ∧ s.replies = [] ∧ ∀ p, ∃ acc : Acceptor, s.node p = Node.start acc ∧
    acc.me = p ∧ acc.instance_h = P.base p ∧ (∀ i ≤ P.base p, acc.values i = P.hist i) ∧
    acc.n_h = ⟨0, p⟩ ∧ acc.n_a = ⟨0, p⟩ ∧ acc.v_a = ""
  step := Cluster.next

/-- What the callers of `run` see to: the proposers of an instance ask the same nodes, the instance
is at most the next one, the value may be proposed, and the counter of the proposal does not
overflow. -/
def RunsAgree (P : Setting) (s : Cluster) : Event → Prop
  | .run p args => args.cur_nodes = P.nodes args.inst ∧ P.proposal args.inst args.newv ∧
      args.inst ≤ (s.node p).acc.instance_h + 1 ∧ (s.node p).pro.my_n.n + 1 ≠ 0
  | _ => True

/-- A request that reaches its node while it is about the node's next instance, or is refused, or
does not depend on the instance. -/
def Timely (acc : Acceptor) : Req → Prop
  | .prepare arg => arg.inst ≤ acc.instance_h + 1 ∨ arg.n ≤ acc.n_h
  | .accept arg => arg.inst = acc.instance_h + 1 ∨ arg.n < acc.n_h
  | .decide _ => True

/-- Requests arrive timely. -/
def ArriveTimely (s : Cluster) : Event → Prop
  | .handle k => ∀ c ∈ s.calls[k]?, Timely (s.node c.dst).acc c.req
  | _ => True

/-- The runs in which the callers of `run` agree and every request arrives timely. -/
def InStep (P : Setting) (s : Cluster) (e : Event) : Prop := RunsAgree P s e ∧ ArriveTimely s e

/-! ## The invariant -/

/-- What holds of the acceptor `a` of node `d`. -/
structure AcceptorInv (P : Setting) (rs : List Reply) (d : String) (a : Acceptor) : Prop where
  /-- No instance is lost. -/
  base : P.base d ≤ a.instance_h
  /-- A promise was for the open instance or an earlier one, and is kept while the instance is
  open. -/
  promised : ∀ i b res, Promised rs d i b res →
    P.base d < i ∧ i ≤ a.instance_h + 1 ∧ (i = a.instance_h + 1 → b ≤ a.n_h)
  /-- An acceptance was for the open instance or an earlier one, and is not above the last one. -/
  accepted : ∀ i b v, Accepted rs d i b v →
    i ≤ a.instance_h + 1 ∧ (i = a.instance_h + 1 → b ≤ a.n_a)
  /-- Without an accepted proposal there is no value. -/
  nothing : a.n_a.n = 0 → a.v_a = ""
  /-- The accepted proposal is one of the open instance, and not above the promise. -/
  current : a.n_a.n ≠ 0 → Accepted rs d (a.instance_h + 1) a.n_a a.v_a ∧ a.n_a ≤ a.n_h
  /-- A promise reports every lower acceptance. -/
  report_le : ∀ i b res c w, Promised rs d i b res → Accepted rs d i c w → c < b → c ≤ res.n_a
  /-- A number is promised once. -/
  promise_unique : ∀ i b res res', Promised rs d i b res → Promised rs d i b res' → res = res'
  /-- The values are those decided. -/
  values : ∀ i, i ≤ a.instance_h → Decided P rs i (a.values i)

/-- The number `b` is one of node `p`, whose last number is `my_n`. -/
structure Numbered (p : String) (my_n b : PropT) : Prop where
  /-- It carries the node's name. -/
  m : b.m = p
  /-- Its counter is not `0`. -/
  pos : b.n ≠ 0
  /-- It is not above the node's last number. -/
  le : b.n.toNat ≤ my_n.n.toNat

/-- What holds of a call. -/
def CallInv (P : Setting) (rs : List Reply) (my_n : String → PropT) (c : Call) : Prop :=
  match c.req with
  | .prepare arg => Numbered c.src (my_n c.src) arg.n
  | .accept arg => Numbered c.src (my_n c.src) arg.n ∧ P.proposal arg.inst arg.v ∧
      Backed P.nodes rs arg.inst arg.n arg.v ∧ ∃ res, Promised rs c.dst arg.inst arg.n res
  | .decide arg => ∃ b, ChosenAt P.nodes rs arg.inst b arg.v ∧ Accepted rs c.dst arg.inst b arg.v

/-- What holds of a reply. -/
def ReplyInv (P : Setting) (cs : List Call) (rs : List Reply) (r : Reply) : Prop :=
  match r.call.req, r.res with
  | .prepare arg, .prepare res => (res.oldinstance = true → Decided P rs arg.inst res.v_a) ∧
      (res.accept = true → (res.n_a.n = 0 → res.v_a = "") ∧
        (res.n_a.n ≠ 0 → Proposed cs arg.inst res.n_a res.v_a ∧ res.n_a < arg.n))
  | .accept _, .accept _ => True
  | .decide _, .decide => True
  | _, _ => False

/-- What holds of the loop of `prepare`: the nodes in `accepts` promised, and `v` is the value of
the highest report among theirs. -/
structure PreparingInv (P : Setting) (cs : List Call) (rs : List Reply) (my_n : PropT) (inst_h : ℕ)
    (args : RunArgs) (accepts : List String) (highest_seen : PropT) (v : String) : Prop where
  /-- The nodes are those of the instance. -/
  nodes : args.cur_nodes = P.nodes args.inst
  /-- The new value may be proposed. -/
  newv : P.proposal args.inst args.newv
  /-- The instance is at most the next one. -/
  inst : args.inst ≤ inst_h + 1
  /-- Nothing was proposed with the number yet. -/
  unused : ∀ c ∈ cs, ∀ arg, c.req = .accept arg → arg.n ≠ my_n
  /-- The nodes in `accepts` promised, and reported nothing above `highest_seen`. -/
  promised : ∀ d ∈ accepts, ∃ res, Promised rs d args.inst my_n res ∧ res.n_a ≤ highest_seen
  /-- The highest report, if there is one. -/
  highest : highest_seen.n = 0 ∧ v = "" ∨ highest_seen.n ≠ 0 ∧ P.proposal args.inst v ∧
    ∃ d ∈ accepts, ∃ res, Promised rs d args.inst my_n res ∧ res.n_a = highest_seen ∧ res.v_a = v

/-- What holds of the loop of `accept`. -/
structure AcceptingInv (P : Setting) (cs : List Call) (rs : List Reply) (my_n : PropT)
    (args : RunArgs) (v : String) (todo accepts : List String) : Prop where
  /-- The nodes are those of the instance. -/
  nodes : args.cur_nodes = P.nodes args.inst
  /-- The value may be proposed. -/
  proposal : P.proposal args.inst v
  /-- The proposal is backed. -/
  backed : Backed P.nodes rs args.inst my_n v
  /-- The nodes to call promised. -/
  promised : ∀ d ∈ todo, ∃ res, Promised rs d args.inst my_n res
  /-- Nothing else was proposed with the number. -/
  only : ∀ c ∈ cs, ∀ arg, c.req = .accept arg → arg.n = my_n → arg = ⟨args.inst, my_n, v⟩
  /-- The nodes in `accepts` accepted. -/
  accepted : ∀ d ∈ accepts, Accepted rs d args.inst my_n v

/-- What holds of the loop of `decide`. -/
structure DecidingInv (P : Setting) (rs : List Reply) (my_n : PropT) (args : RunArgs) (v : String)
    (todo : List String) : Prop where
  /-- The value is chosen. -/
  chosen : ChosenAt P.nodes rs args.inst my_n v
  /-- The nodes to call accepted. -/
  accepted : ∀ d ∈ todo, Accepted rs d args.inst my_n v

/-- What holds of a proposer in a phase. -/
def PhaseInv (P : Setting) (cs : List Call) (rs : List Reply) (my_n : PropT) (inst_h : ℕ) :
    Phase → Prop
  | .stable => True
  | .preparing args _ accepts highest_seen v => my_n.n ≠ 0 ∧
      PreparingInv P cs rs my_n inst_h args accepts highest_seen v
  | .accepting args v todo accepts => my_n.n ≠ 0 ∧ AcceptingInv P cs rs my_n args v todo accepts
  | .deciding args v todo => DecidingInv P rs my_n args v todo
  | .committing => True

/-- What holds in every state of a run. -/
structure Inv (P : Setting) (s : Cluster) : Prop where
  /-- The acceptors. -/
  acceptor : ∀ d, AcceptorInv P s.replies d (s.node d).acc
  /-- A proposer's numbers carry its name. -/
  name : ∀ p, (s.node p).pro.my_n.m = p
  /-- The calls. -/
  call : ∀ c ∈ s.calls, CallInv P s.replies (fun p => (s.node p).pro.my_n) c
  /-- A number is proposed with once. -/
  unique : ∀ c ∈ s.calls, ∀ c' ∈ s.calls, ∀ arg arg', c.req = .accept arg → c'.req = .accept arg' →
    arg.n = arg'.n → arg = arg'
  /-- Replies are to calls. -/
  reply_call : ∀ r ∈ s.replies, r.call ∈ s.calls
  /-- The replies. -/
  reply : ∀ r ∈ s.replies, ReplyInv P s.calls s.replies r
  /-- The phases of the proposers. -/
  phase : ∀ p, PhaseInv P s.calls s.replies (s.node p).pro.my_n (s.node p).acc.instance_h
    (s.node p).pro.phase
  /-- A proposer waits for the call of its current turn. -/
  waiting : ∀ p c, (s.node p).pro.waiting = some c →
    c.src = p ∧ (s.node p).pro.request = some (c.dst, c.req)

/-! ## What more messages do not change -/

section Mono

variable {P : Setting} {cs : List Call} {rs rs' : List Reply}

/-- Replies that are no promise and no acceptance of node `d` do not concern its acceptor. -/
theorem AcceptorInv.mono {d : String} {a : Acceptor} (h : AcceptorInv P rs d a) (hrs : rs ⊆ rs')
    (hp : ∀ i b res, Promised rs' d i b res → Promised rs d i b res)
    (ha : ∀ i b v, Accepted rs' d i b v → Accepted rs d i b v) : AcceptorInv P rs' d a where
  base := h.base
  promised i b res hprom := h.promised i b res (hp i b res hprom)
  accepted i b v hacc := h.accepted i b v (ha i b v hacc)
  nothing := h.nothing
  current hne := ⟨(h.current hne).1.mono hrs, (h.current hne).2⟩
  report_le i b res c w hprom hacc := h.report_le i b res c w (hp i b res hprom) (ha i c w hacc)
  promise_unique i b res res' h₁ h₂ := h.promise_unique i b res res' (hp _ _ _ h₁) (hp _ _ _ h₂)
  values i hi := (h.values i hi).mono hrs

/-- A reply that is no promise and no acceptance does not concern any acceptor. -/
theorem AcceptorInv.append_reply {d : String} {a : Acceptor} (h : AcceptorInv P rs d a) {r : Reply}
    (hp : ∀ res, r.res = .prepare res → res.accept = false) (ha : r.res ≠ .accept true) :
    AcceptorInv P (rs ++ [r]) d a := by
  refine h.mono (List.subset_append_left _ _) (fun i b res hprom => ?_) fun i b v hacc => ?_
  · rcases promised_append hprom with hold | ⟨-, -, hres⟩
    · exact hold
    · exact absurd hprom.1 (by rw [hp res hres]; exact Bool.false_ne_true)
  · rcases accepted_append hacc with hold | ⟨-, -, hres⟩
    · exact hold
    · exact absurd hres ha

/-- A call stays in order. -/
theorem CallInv.mono {my_n my_n' : String → PropT} {c : Call} (h : CallInv P rs my_n c)
    (hrs : rs ⊆ rs') (hle : ∀ p, (my_n p).n.toNat ≤ (my_n' p).n.toNat) :
    CallInv P rs' my_n' c := by
  unfold CallInv at h ⊢
  cases hreq : c.req with
  | prepare arg =>
    simp only [hreq] at h ⊢
    exact { h with le := h.le.trans (hle _) }
  | accept arg =>
    simp only [hreq] at h ⊢
    obtain ⟨hnum, hprop, hback, res, hres⟩ := h
    exact ⟨{ hnum with le := hnum.le.trans (hle _) }, hprop, hback.mono hrs, res, hres.mono hrs⟩
  | decide arg =>
    simp only [hreq] at h ⊢
    obtain ⟨b, hchosen, hacc⟩ := h
    exact ⟨b, hchosen.mono hrs, hacc.mono hrs⟩

/-- A reply stays in order. -/
theorem ReplyInv.mono {cs' : List Call} {r : Reply} (h : ReplyInv P cs rs r) (hcs : cs ⊆ cs')
    (hrs : rs ⊆ rs') : ReplyInv P cs' rs' r := by
  unfold ReplyInv at h ⊢
  cases hreq : r.call.req <;> cases hres : r.res <;> simp only [hreq, hres] at h ⊢
  exact ⟨fun ho => (h.1 ho).mono hrs, fun hacc => ⟨(h.2 hacc).1,
    fun hne => ⟨((h.2 hacc).2 hne).1.mono hcs, ((h.2 hacc).2 hne).2⟩⟩⟩

/-- A proposer stays in order when there are more replies, and when its acceptor moves on. -/
theorem PhaseInv.mono {my_n : PropT} {k k' : ℕ} {phase : Phase} (h : PhaseInv P cs rs my_n k phase)
    (hrs : rs ⊆ rs') (hk : k ≤ k') : PhaseInv P cs rs' my_n k' phase := by
  cases phase with
  | stable => trivial
  | preparing args todo accepts highest_seen v =>
    obtain ⟨hpos, h⟩ := h
    refine ⟨hpos, h.nodes, h.newv, by have := h.inst; omega, h.unused, fun d hd => ?_, ?_⟩
    · obtain ⟨res, hres, hle⟩ := h.promised d hd
      exact ⟨res, hres.mono hrs, hle⟩
    · refine h.highest.imp id fun ⟨hne, hprop, d, hd, res, hres, heq⟩ => ?_
      exact ⟨hne, hprop, d, hd, res, hres.mono hrs, heq⟩
  | accepting args v todo accepts =>
    obtain ⟨hpos, h⟩ := h
    refine ⟨hpos, h.nodes, h.proposal, h.backed.mono hrs, fun d hd => ?_, h.only, fun d hd => ?_⟩
    · obtain ⟨res, hres⟩ := h.promised d hd
      exact ⟨res, hres.mono hrs⟩
    · exact (h.accepted d hd).mono hrs
  | deciding args v todo =>
    exact ⟨h.chosen.mono hrs, fun d hd => (h.accepted d hd).mono hrs⟩
  | committing => trivial

/-- A proposer stays in order when a call is made that is no proposal with its number, or is its own
proposal. -/
theorem PhaseInv.called {my_n : PropT} {k : ℕ} {phase : Phase} (h : PhaseInv P cs rs my_n k phase)
    {c : Call} (hc : ∀ arg, c.req = .accept arg → arg.n = my_n →
      ∃ args v todo accepts, phase = .accepting args v todo accepts ∧
        arg = ⟨args.inst, my_n, v⟩) : PhaseInv P (cs ++ [c]) rs my_n k phase := by
  cases phase with
  | stable => trivial
  | preparing args todo accepts highest_seen v =>
    obtain ⟨hpos, h⟩ := h
    refine ⟨hpos, h.nodes, h.newv, h.inst, ?_, h.promised, h.highest⟩
    refine List.forall_mem_append.mpr
      ⟨h.unused, List.forall_mem_singleton.mpr fun arg hreq hn => ?_⟩
    obtain ⟨_, _, _, _, hphase, -⟩ := hc arg hreq hn
    cases hphase
  | accepting args v todo accepts =>
    obtain ⟨hpos, h⟩ := h
    refine ⟨hpos, h.nodes, h.proposal, h.backed, h.promised, ?_, h.accepted⟩
    refine List.forall_mem_append.mpr ⟨h.only, List.forall_mem_singleton.mpr fun arg hreq hn => ?_⟩
    obtain ⟨_, _, _, _, hphase, harg⟩ := hc arg hreq hn
    cases hphase
    exact harg
  | deciding args v todo => exact h
  | committing => trivial

/-- The code between the loops keeps a proposer in order: a majority of promises backs the proposal,
and a majority of acceptances chooses the value. -/
theorem PhaseInv.settle {my_n : PropT} {k : ℕ} {phase : Phase}
    (h : PhaseInv P cs rs my_n k phase) : PhaseInv P cs rs my_n k phase.settle := by
  unfold Phase.settle
  split
  · next args accepts highest_seen v =>
    obtain ⟨hpos, h⟩ := h
    split_ifs with hmaj hv
    · -- Nobody reported anything.
      have hv' : v = "" := String.length_eq_zero_iff.mp hv
      have hzero : highest_seen.n = 0 := by
        rcases h.highest with hno | ⟨-, hprop, -⟩
        · exact hno.1
        · exact absurd hv' (P.proposal_ne _ _ hprop)
      refine ⟨hpos, h.nodes, h.newv, ⟨accepts, h.nodes ▸ hmaj, fun d hd => ?_⟩, fun d hd => ?_,
        fun c hc arg hreq hn => absurd hn (h.unused c hc arg hreq), by simp⟩
      · obtain ⟨res, hres, hle⟩ := h.promised d hd
        exact ⟨res, hres, fun hne => absurd (PropT.n_eq_zero_of_le hle hzero) hne⟩
      · obtain ⟨res, hres, -⟩ := h.promised d hd
        exact ⟨res, hres⟩
    · -- The value is the one of the highest report.
      rcases h.highest with hno | ⟨hne, hprop, d', hd', res', hres', hhigh, hv'⟩
      · exact absurd (String.length_eq_zero_iff.mpr hno.2) hv
      refine ⟨hpos, h.nodes, hprop, ⟨accepts, h.nodes ▸ hmaj, fun d hd => ?_⟩, fun d hd => ?_,
        fun c hc arg hreq hn => absurd hn (h.unused c hc arg hreq), by simp⟩
      · obtain ⟨res, hres, hle⟩ := h.promised d hd
        exact ⟨res, hres, fun _ => ⟨d', hd', res', hres', hhigh ▸ hle, hv'⟩⟩
      · obtain ⟨res, hres, -⟩ := h.promised d hd
        exact ⟨res, hres⟩
    · trivial
  · next args v accepts =>
    obtain ⟨-, h⟩ := h
    split_ifs with hmaj
    · exact ⟨⟨accepts, h.nodes ▸ hmaj, h.accepted⟩, h.accepted⟩
    · trivial
  · trivial
  · exact h

/-- A proposer that goes on to the next node stays in order. -/
theorem PhaseInv.skip {my_n : PropT} {k : ℕ} {phase : Phase} (h : PhaseInv P cs rs my_n k phase) :
    PhaseInv P cs rs my_n k phase.skip := by
  unfold Phase.skip
  split
  · next args d todo accepts highest_seen v =>
    have hnext : PhaseInv P cs rs my_n k (.preparing args todo accepts highest_seen v) := h
    exact hnext.settle
  · next args v d todo accepts =>
    have hnext : PhaseInv P cs rs my_n k (.accepting args v todo accepts) :=
      ⟨h.1, h.2.nodes, h.2.proposal, h.2.backed,
        fun d hd => h.2.promised d (List.mem_cons_of_mem _ hd), h.2.only, h.2.accepted⟩
    exact hnext.settle
  · next args v d todo =>
    have hnext : PhaseInv P cs rs my_n k (.deciding args v todo) :=
      ⟨h.chosen, fun d hd => h.accepted d (List.mem_cons_of_mem _ hd)⟩
    exact hnext.settle
  · exact h

end Mono

/-! ## Every instance is a lawful history -/

section Lawful

variable {P : Setting} {s : Cluster} (h : Inv P s)
include h

/-- What was accepted was proposed. -/
theorem Inv.exists_call {d : String} {i : ℕ} {b : PropT} {v : String}
    (ha : Accepted s.replies d i b v) : ∃ c ∈ s.calls, c.dst = d ∧ c.req = .accept ⟨i, b, v⟩ := by
  obtain ⟨c, hdst, hreq, hmem⟩ := ha
  exact ⟨c, h.reply_call _ hmem, hdst, hreq⟩

/-- What was proposed is backed, with a number that is not `0` and a value that may be proposed. -/
theorem Inv.proposed {i : ℕ} {b : PropT} {v : String} (hp : Proposed s.calls i b v) :
    b.n ≠ 0 ∧ P.proposal i v ∧ Backed P.nodes s.replies i b v := by
  obtain ⟨c, hc, hreq⟩ := hp
  have hcall := h.call c hc
  simp only [CallInv, hreq] at hcall
  exact ⟨hcall.1.pos, hcall.2.1, hcall.2.2.1⟩

/-- What was accepted has a number that is not `0`. -/
theorem Inv.accepted_pos {d : String} {i : ℕ} {b : PropT} {v : String}
    (ha : Accepted s.replies d i b v) : b.n ≠ 0 := by
  obtain ⟨c, hc, -, hreq⟩ := h.exists_call ha
  exact (h.proposed ⟨c, hc, hreq⟩).1

/-- A node that accepted a proposal had promised its number. -/
theorem Inv.promised_of_accepted {d : String} {i : ℕ} {b : PropT} {v : String}
    (ha : Accepted s.replies d i b v) : ∃ res, Promised s.replies d i b res := by
  obtain ⟨c, hc, rfl, hreq⟩ := h.exists_call ha
  have hcall := h.call c hc
  simp only [CallInv, hreq] at hcall
  exact hcall.2.2.2

/-- What a promise reports was proposed, with a lower number. -/
theorem Inv.reported {d : String} {i : ℕ} {b : PropT} {res : PrepareRes}
    (hp : Promised s.replies d i b res) : (res.n_a.n = 0 → res.v_a = "") ∧
      (res.n_a.n ≠ 0 → Proposed s.calls i res.n_a res.v_a ∧ res.n_a < b) := by
  obtain ⟨hacc, c, -, hreq, hmem⟩ := hp
  have hreply := h.reply _ hmem
  simp only [ReplyInv, hreq] at hreply
  exact hreply.2 hacc

/-- The messages of an instance obey the rules of voting. -/
theorem Inv.votingLaws (i : ℕ) : VotingLaws P.nodes s.calls s.replies i where
  unique := by
    rintro b v w ⟨c, hc, hreq⟩ ⟨c', hc', hreq'⟩
    have := h.unique c hc c' hc' _ _ hreq hreq' rfl
    simpa using this
  accepted d b v ha := by
    obtain ⟨c, hc, -, hreq⟩ := h.exists_call ha
    exact ⟨c, hc, hreq⟩
  pos b v hp := (h.proposed hp).1
  backed b v hp := (h.proposed hp).2.2
  reported d b res hres := (h.reported hres).2
  report_le d b res c w hres hacc := (h.acceptor d).report_le i b res c w hres hacc
  promise_unique d b res res' := (h.acceptor d).promise_unique i b res res'

/-- The messages of an instance are a lawful history of ballots. -/
theorem Inv.lawful (i : ℕ) :
    (instanceHistory s.calls s.replies i).Lawful (Majority (P.nodes i)) := (h.votingLaws i).lawful

/-- Nothing is chosen in an instance that was decided before the run. -/
theorem Inv.not_chosenAt_of_base {i : ℕ} {d : String} (hd : i ≤ P.base d) (b : PropT)
    (v : String) : ¬ ChosenAt P.nodes s.replies i b v := by
  rintro ⟨T, hT, hacc⟩
  -- One of the nodes that accepted had the instance at the start, and never promised in it.
  obtain ⟨d', hd', hbase⟩ := P.known i d hd T hT
  obtain ⟨res, hres⟩ := h.promised_of_accepted (hacc d' hd')
  have := ((h.acceptor d').promised i b res hres).1
  omega

/-- At most one value is decided in an instance. -/
theorem Inv.decided_unique {i : ℕ} {w w' : String} (hw : Decided P s.replies i w)
    (hw' : Decided P s.replies i w') : w = w' := by
  rcases hw with ⟨b, hb⟩ | ⟨⟨d, hd⟩, rfl⟩ <;> rcases hw' with ⟨b', hb'⟩ | ⟨⟨d', hd'⟩, rfl⟩
  · exact (h.lawful i).chosen_unique (chosen_of_chosenAt _ hb) (chosen_of_chosenAt _ hb')
  · exact absurd hb (h.not_chosenAt_of_base hd' b w)
  · exact absurd hb' (h.not_chosenAt_of_base hd b' w')
  · rfl

/-- Any two nodes that have an instance have the same value for it. -/
theorem Inv.values_eq {i : ℕ} {d d' : String} (hd : i ≤ (s.node d).acc.instance_h)
    (hd' : i ≤ (s.node d').acc.instance_h) :
    (s.node d).acc.values i = (s.node d').acc.values i :=
  h.decided_unique ((h.acceptor d).values i hd) ((h.acceptor d').values i hd')

/-- What is decided in the run was proposed. -/
theorem Inv.proposal_of_chosenAt {i : ℕ} {b : PropT} {v : String}
    (hc : ChosenAt P.nodes s.replies i b v) : P.proposal i v := by
  obtain ⟨T, hT, hacc⟩ := hc
  cases T with
  | nil => rw [not_majority_nil] at hT; cases hT
  | cons d T =>
    obtain ⟨c, hc, -, hreq⟩ := h.exists_call (hacc d List.mem_cons_self)
    exact (h.proposed ⟨c, hc, hreq⟩).2.1

/-- A decide request is for an instance that its node has committed, or for the next one and carries
the value that the node has accepted. -/
theorem Inv.decide_call {c : Call} (hc : c ∈ s.calls) {arg : DecideArg}
    (hreq : c.req = .decide arg) : arg.inst ≤ (s.node c.dst).acc.instance_h ∨
      arg.inst = (s.node c.dst).acc.instance_h + 1 ∧ (s.node c.dst).acc.v_a = arg.v := by
  have hcall := h.call c hc
  simp only [CallInv, hreq] at hcall
  obtain ⟨b, hchosen, hacc⟩ := hcall
  have hA := h.acceptor c.dst
  obtain ⟨hle, hopen⟩ := hA.accepted _ _ _ hacc
  rcases Nat.lt_or_ge (s.node c.dst).acc.instance_h arg.inst with hlt | hge
  · have hinst : arg.inst = (s.node c.dst).acc.instance_h + 1 := by omega
    have hb := hopen hinst
    have hne : (s.node c.dst).acc.n_a.n ≠ 0 := fun hzero =>
      h.accepted_pos hacc (PropT.n_eq_zero_of_le hb hzero)
    -- The node accepted something from `b` on, so that it has the chosen value.
    have hcur := (hA.current hne).1
    rw [← hinst] at hcur
    exact Or.inr ⟨hinst, (h.lawful _).proposed_eq_of_chosen (chosen_of_chosenAt _ hchosen)
      ((h.lawful _).accepted_proposed _ _ _ hcur) hb⟩
  · exact Or.inl hge

end Lawful

end SimpleDfs.Paxos
