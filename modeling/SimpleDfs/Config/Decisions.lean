import SimpleDfs.Config.ViewChain

/-!
# The decided history of a node

`commit_wo` takes any instance that is beyond `instance_h`, and `operator[]` of `values` makes an
empty entry for an instance that it skipped. No instance is ever skipped. `decidereq` aborts when an
instance is beyond the next one, and a proposer is run for the instance after a view that `config`
was at, so that an old instance that it commits is the next one at most (`HistoryInv.phase`).

`historySystem` is one node in an environment that may send it any request and any reply.
-/

namespace SimpleDfs

open Paxos Config

/-! ## One node -/

/-- The instance and the value of a `done` record. -/
def Paxos.Record.decided : Record → Option (ℕ × String)
  | done inst v => some (inst, v)
  | _ => none

/-- The instance that a step commits, with its value. -/
def newly (acc acc' : Acceptor) : List (ℕ × String) :=
  if acc.instance_h < acc'.instance_h then [(acc'.instance_h, acc'.values acc'.instance_h)] else []

/-- A node with its config module, and the instances that were committed at it. -/
structure NodeHistory where
  /-- The acceptor, the proposer and the upcalls. -/
  node : Node
  /-- The config module. -/
  cfg : Config
  /-- The calls of `proposer::run` that the config module is about to make. -/
  asked : List RunArgs
  /-- The instances committed so far with their values, in the order of their commits. -/
  commits : List (ℕ × String)

/-- What happens at the node. -/
inductive HistoryEvent where
  /-- A request is handled. -/
  | handle (req : Req)
  /-- `config::add`. -/
  | add (m : String) (vid : ℕ)
  /-- `config::remove_wo`. -/
  | remove (m : String)
  /-- The `k`-th pending call of `proposer::run`. -/
  | run (k : ℕ)
  /-- The proposer makes the call `c`. -/
  | send (c : Call)
  /-- The proposer gives the current call up, or cannot make it. -/
  | skip
  /-- The proposer takes a result. -/
  | receive (res : Res)
  /-- The `k`-th pending upcall runs. -/
  | upcall (k : ℕ)
  deriving DecidableEq, Repr

/-- The proposer makes the call `c`, and waits for its result. -/
def Paxos.Node.sending (n : Node) (c : Call) : Node :=
  { n with pro := { n.pro with xid := n.pro.xid + 1, waiting := some c } }

namespace NodeHistory

/-- The node takes a step, which may commit an instance. -/
def move (s : NodeHistory) (n : Node) : NodeHistory :=
  { s with node := n, commits := s.commits ++ newly s.node.acc n.acc }

/-- The config module is about to call the proposer. -/
def ask (s : NodeHistory) (args : RunArgs) : NodeHistory := { s with asked := s.asked ++ [args] }

/-- The node after an event, when it is possible. -/
def next (s : NodeHistory) : HistoryEvent → Option NodeHistory
  | .handle req => if s.node.down then none else some (s.move (s.node.handle req).1)
  | .add m vid => some ((s.cfg.add m vid).elim s s.ask)
  | .remove m => some (s.ask (s.cfg.removeWo m))
  | .run k => s.asked[k]?.bind fun args => if s.node.down then none
    else some { s.move (s.node.run args) with asked := s.asked.eraseIdx k }
  | .send c => if s.node.down then none else some (s.move (s.node.sending c))
  | .skip => if s.node.down then none else some (s.move (s.node.goto s.node.pro.phase.skip))
  | .receive res => if s.node.down ∨ s.node.pro.waiting = none then none
    else some (s.move (s.node.receive res))
  | .upcall k => s.node.upcalls[k]?.bind fun u => if s.node.down then none
    else some { s.move (s.node.upcalled k u) with cfg := s.cfg.paxosCommit u.inst u.value }

end NodeHistory

/-- A log that a node writes, whose `done` records are `1`, `2` and so on. -/
structure Gapless (rs : List Record) : Prop where
  /-- The records can be read back. -/
  wellFormed : ∀ r ∈ rs, r.WellFormed
  /-- No instance is left out. -/
  order : ∃ k, rs.filterMap Record.doneInst = List.range' 1 k

variable {args : RunArgs} {s : NodeHistory} {acc acc' : Acceptor} {n : Node} {rs : List Record}

/-- It is a log. -/
theorem Gapless.isLog (h : Gapless rs) : IsLog rs := by
  obtain ⟨k, hk⟩ := h.order
  refine ⟨h.wellFormed, ?_, fun inst hinst => ?_⟩
  · rw [hk]
    exact List.pairwise_lt_range'
  · rw [hk, List.mem_range'_1] at hinst
    exact hinst.1

/-- A node with the name `me`, started on the log that an earlier start of it left, if any. -/
def historySystem (first me : String) : System NodeHistory HistoryEvent where
  init s := ∃ rs log acc₀ acc, Gapless rs ∧ log.toList = logChars rs ∧
    (Acceptor.fresh me log).logread = some acc₀ ∧
    Acceptor.construct (me == first) me me log = some acc ∧
    s = ⟨Node.start acc, Config.construct me acc, [],
      rs.filterMap Record.decided ++ newly acc₀ acc⟩
  step := NodeHistory.next

/-! ## What one step adds to the history -/

/-- The history of the acceptor `acc` is `commits`. -/
structure Decides (acc : Acceptor) (commits : List (ℕ × String)) : Prop where
  /-- The instances are committed in their order, and none is left out. -/
  order : commits.map Prod.fst = List.range' 1 acc.instance_h
  /-- The values are those committed. -/
  values : ∀ c ∈ commits, acc.values c.1 = c.2
  /-- The `done` records of the log are those of the commits. -/
  log : ∃ rs, acc.log.toList = logChars rs ∧ rs.filterMap Record.decided = commits

/-- What a step does to the history of an acceptor. -/
inductive Adds (acc acc' : Acceptor) : Prop
  /-- The step changes nothing of it. -/
  | same (instance_h : acc'.instance_h = acc.instance_h) (values : acc'.values = acc.values)
      (log : acc'.log = acc.log)
  /-- The step logs a promise, or a proposal that it accepts. -/
  | record (r : Record) (instance_h : acc'.instance_h = acc.instance_h)
      (values : acc'.values = acc.values) (decided : r.decided = none)
      (log : acc'.log.toList = acc.log.toList ++ r.chars)
  /-- The step commits the next instance. -/
  | commit (v : String) (instance_h : acc'.instance_h = acc.instance_h + 1)
      (values : acc'.values = Function.update acc.values (acc.instance_h + 1) v)
      (log : acc'.log.toList = acc.log.toList ++ (Record.done (acc.instance_h + 1) v).chars)

/-- A step that changes nothing of the acceptor. -/
theorem Adds.refl (acc : Acceptor) : Adds acc acc := Adds.same rfl rfl rfl

/-- `preparereq` may log a promise. -/
theorem adds_preparereq (acc : Acceptor) (arg : PrepareArg) : Adds acc (acc.preparereq arg).1 := by
  unfold Acceptor.preparereq
  split_ifs
  · exact Adds.refl acc
  · exact Adds.record (.propseen arg.n) rfl rfl rfl (log_logprop _ _)
  · exact Adds.refl acc

/-- `acceptreq` may log a proposal. -/
theorem adds_acceptreq (acc : Acceptor) (arg : AcceptArg) : Adds acc (acc.acceptreq arg).1 := by
  unfold Acceptor.acceptreq
  split_ifs
  · exact Adds.record (.accepted arg.n arg.v) rfl rfl rfl (log_logaccept _ _ _)
  · exact Adds.refl acc

/-- `commit_wo` commits the next instance when it is called for no later one. -/
theorem adds_commitWo {acc : Acceptor} {inst : ℕ} (hinst : inst ≤ acc.instance_h + 1) (v : String) :
    Adds acc (acc.commitWo inst v) := by
  by_cases hnew : inst > acc.instance_h
  · obtain rfl : inst = acc.instance_h + 1 := by omega
    rw [Acceptor.commitWo, if_pos hnew]
    exact Adds.commit v rfl rfl (log_loginstance _ _ _)
  · rw [Acceptor.commitWo, if_neg hnew]
    exact Adds.refl acc

/-- `decidereq` commits the next instance, or nothing. -/
theorem adds_decidereq {arg : DecideArg} (h : acc.decidereq arg = some acc') : Adds acc acc' := by
  unfold Acceptor.decidereq at h
  split_ifs at h with hnext hval hold
  · rw [← Option.some.inj h]
    exact adds_commitWo hnext.le _
  · rw [← Option.some.inj h]
    exact Adds.refl acc

/-- The handlers commit the next instance, or nothing. -/
theorem adds_handle (n : Node) (req : Req) : Adds n.acc (n.handle req).1.acc := by
  cases req with
  | prepare arg => exact adds_preparereq n.acc arg
  | accept arg => exact adds_acceptreq n.acc arg
  | decide arg =>
    show Adds n.acc (n.decidereq arg).acc
    unfold Node.decidereq
    split
    next acc hacc => exact adds_decidereq hacc
    next => exact Adds.refl n.acc

/-- The history after a step. -/
theorem Decides.adds {commits : List (ℕ × String)} (h : Decides acc commits) (ha : Adds acc acc') :
    Decides acc' (commits ++ newly acc acc') := by
  have hnone : acc'.instance_h = acc.instance_h → commits ++ newly acc acc' = commits := by
    intro hinst
    rw [newly, if_neg hinst.not_gt, List.append_nil]
  obtain ⟨rs, htext, hdone⟩ := h.log
  cases ha with
  | same hinst hvals hlog =>
    rw [hnone hinst]
    exact ⟨hinst ▸ h.order, hvals ▸ h.values, rs, hlog ▸ htext, hdone⟩
  | record r hinst hvals hr hlog =>
    rw [hnone hinst]
    refine ⟨hinst ▸ h.order, hvals ▸ h.values, rs ++ [r], ?_, ?_⟩
    · rw [hlog, htext, logChars, logChars, List.flatMap_append, List.flatMap_singleton]
    · rw [List.filterMap_append, hdone, List.filterMap_cons_none hr, List.filterMap_nil,
        List.append_nil]
  | commit v hinst hvals hlog =>
    have hnew : newly acc acc' = [(acc.instance_h + 1, v)] := by
      rw [newly, hinst, hvals, Function.update_self, if_pos (Nat.lt_succ_self _)]
    -- The instances committed before are below the new one, and keep their values.
    have hne : ∀ c ∈ commits, c.1 ≠ acc.instance_h + 1 := by
      intro c hc
      have hmem : c.1 ∈ List.range' 1 acc.instance_h := h.order ▸ List.mem_map_of_mem hc
      rw [List.mem_range'_1] at hmem
      omega
    rw [hnew]
    refine ⟨?_, ?_, rs ++ [.done (acc.instance_h + 1) v], ?_, ?_⟩
    · rw [hinst, List.map_append, h.order, List.range'_1_concat, Nat.add_comm 1]
      rfl
    · rw [hvals]
      refine List.forall_mem_append.mpr ⟨fun c hc => ?_, List.forall_mem_singleton.mpr ?_⟩
      · rw [Function.update_of_ne (hne c hc)]
        exact h.values c hc
      · exact Function.update_self _ _ _
    · rw [hlog, htext, logChars, logChars, List.flatMap_append, List.flatMap_singleton]
    · rw [List.filterMap_append, hdone]
      rfl

/-- Every instance up to `instance_h` was committed. -/
theorem Decides.exists_commit {acc : Acceptor} {commits : List (ℕ × String)}
    (h : Decides acc commits) {i : ℕ} (hi : 1 ≤ i) (hle : i ≤ acc.instance_h) :
    ∃ c ∈ commits, c.1 = i := by
  have hmem : i ∈ List.range' 1 acc.instance_h := List.mem_range'_1.mpr ⟨hi, by omega⟩
  rw [← h.order] at hmem
  exact List.mem_map.mp hmem

/-- An old instance is one that the acceptor has passed, and is answered with its value. -/
theorem preparereq_oldinstance {acc : Acceptor} {arg : PrepareArg}
    (h : (acc.preparereq arg).2.oldinstance = true) :
    arg.inst ≤ acc.instance_h ∧ (acc.preparereq arg).2.v_a = acc.values arg.inst := by
  unfold Acceptor.preparereq at h ⊢
  split_ifs at h ⊢ with hold
  exact ⟨hold, rfl⟩

/-- A step does not lower `instance_h`. -/
theorem Adds.instance_h_le (h : Adds acc acc') :
    acc.instance_h ≤ acc'.instance_h := by
  cases h with
  | same hinst => exact hinst.ge
  | record _ hinst => exact hinst.ge
  | commit v hinst => omega

/-- A replay of a log without gaps ends at the number of its instances. -/
theorem instance_h_replayAll {k : ℕ} (hk : rs.filterMap Record.doneInst = List.range' 1 k)
    {a : Acceptor} (ha : a.instance_h = 0) :
    (replayAll rs a).instance_h = k := by
  induction rs using List.reverseRecOn generalizing k with
  | nil =>
    obtain rfl : k = 0 := by simpa using hk.symm
    exact ha
  | append_singleton rs r ih =>
    rw [replayAll, List.foldl_append]
    rw [List.filterMap_append] at hk
    cases r with
    | done inst v =>
      show inst = k
      cases k with
      | zero => simp [Record.doneInst] at hk
      | succ j =>
        rw [List.range'_1_concat] at hk
        have hlast := (List.append_inj' hk rfl).2
        simp only [Record.doneInst, List.filterMap_cons, List.filterMap_nil,
          List.cons.injEq, and_true] at hlast
        omega
    | propseen n =>
      rw [show [Record.propseen n].filterMap Record.doneInst = [] from rfl, List.append_nil] at hk
      exact ih hk
    | accepted n v =>
      rw [show [Record.accepted n v].filterMap Record.doneInst = [] from rfl, List.append_nil] at hk
      exact ih hk

/-- The log of an earlier start gives the history that it recorded. -/
theorem decides_replayAll (hrs : Gapless rs) {me log : String} (htext : log.toList = logChars rs) :
    Decides (replayAll rs (Acceptor.fresh me log)) (rs.filterMap Record.decided) := by
  obtain ⟨k, hk⟩ := hrs.order
  have hfst : (rs.filterMap Record.decided).map Prod.fst = rs.filterMap Record.doneInst := by
    rw [List.map_filterMap]
    congr 1
    funext r
    cases r <;> rfl
  refine ⟨?_, fun c hc => ?_, rs, ?_, rfl⟩
  · rw [hfst, hk, instance_h_replayAll hk rfl]
  · obtain ⟨r, hr, hdec⟩ := List.mem_filterMap.mp hc
    cases r with
    | done inst v =>
      obtain rfl := Option.some.inj hdec
      exact replayAll_values_of_mem hrs.isLog.ascending hr _
    | propseen n => cases hdec
    | accepted n v => cases hdec
  · rw [replayAll_log]
    exact htext

/-! ## The invariant of one node -/

/-- The arguments that a run of the proposer was called with. -/
def Paxos.Phase.runArgs : Phase → Option RunArgs
  | stable | committing => none
  | preparing args _ _ _ _ | accepting args _ _ _ | deciding args _ _ => some args

/-- The code between the loops stays in the run. -/
theorem runArgs_settle {phase : Phase} (h : phase.settle.runArgs = some args) :
    phase.runArgs = some args := by
  unfold Phase.settle at h
  split at h
  · split at h
    · exact h
    · cases h
  · split at h
    · exact h
    · cases h
  · cases h
  · exact h

/-- A loop that goes on to the next node stays in the run. -/
theorem runArgs_skip {phase : Phase} (h : phase.skip.runArgs = some args) :
    phase.runArgs = some args := by
  unfold Phase.skip at h
  split at h
  · exact (runArgs_settle h :)
  · exact (runArgs_settle h :)
  · exact (runArgs_settle h :)
  · exact h

/-- A run that starts has the arguments that it was called with. -/
theorem runArgs_run {args args' : RunArgs} (h : (n.run args).pro.phase.runArgs = some args') :
    args' = args ∨ n.pro.phase.runArgs = some args' := by
  unfold Node.run Proposer.run at h
  dsimp only at h
  split_ifs at h
  · exact Or.inl (Option.some.inj (runArgs_settle h)).symm
  · exact Or.inr h

/-- A proposer that takes a result stays in the run, or ends it. -/
theorem runArgs_receive {res : Res} (h : (n.receive res).pro.phase.runArgs = some args) :
    n.pro.phase.runArgs = some args := by
  unfold Node.receive at h
  split at h
  next hphase =>
    rw [hphase]
    split_ifs at h
    · cases h
    · cases h
    all_goals exact (runArgs_settle h :)
  next hphase =>
    rw [hphase]
    exact (runArgs_settle h :)
  next hphase =>
    rw [hphase]
    exact (runArgs_settle h :)
  next => exact h

/-- An upcall that runs leaves the run, or ends it. -/
theorem runArgs_upcalled {k : ℕ} {u : Upcall} (h : (n.upcalled k u).pro.phase.runArgs = some args) :
    n.pro.phase.runArgs = some args := by
  unfold Node.upcalled at h
  dsimp only at h
  split_ifs at h
  · cases h
  · exact h

/-- A proposer that is run for the next instance at most commits no later one. -/
theorem adds_receive
    (h : ∀ args, n.pro.phase.runArgs = some args → args.inst ≤ n.acc.instance_h + 1) (res : Res) :
    Adds n.acc (n.receive res).acc := by
  unfold Node.receive
  split
  next args d todo accepts highest_seen v res hphase =>
    have hinst : args.inst ≤ n.acc.instance_h + 1 := h args (by rw [hphase]; rfl)
    split_ifs
    · exact adds_commitWo hinst res.v_a
    · exact adds_commitWo hinst res.v_a
    all_goals exact Adds.refl n.acc
  all_goals exact Adds.refl n.acc

/-- The handlers leave the proposer alone. -/
theorem pro_handle (n : Node) (req : Req) : (n.handle req).1.pro = n.pro := by
  cases req with
  | prepare arg => rfl
  | accept arg => rfl
  | decide arg =>
    show (n.decidereq arg).pro = n.pro
    unfold Node.decidereq
    split <;> rfl

/-- What holds in every state of a run. -/
structure HistoryInv (s : NodeHistory) : Prop where
  /-- The history has no gap. -/
  decides : Decides s.node.acc s.commits
  /-- The config module is at a view of the acceptor. -/
  follows : Follows s.node.acc s.node.upcalls s.cfg
  /-- A call of the proposer is for the next instance at most. -/
  asked : ∀ args ∈ s.asked, args.inst ≤ s.node.acc.instance_h + 1
  /-- So is the run that is on. -/
  phase : ∀ args, s.node.pro.phase.runArgs = some args → args.inst ≤ s.node.acc.instance_h + 1

/-- A step of the node that runs no upcall keeps the invariant. -/
theorem HistoryInv.move (h : HistoryInv s) (ha : Adds s.node.acc n.acc) (hm : Moves s.node n)
    (hphase : ∀ args, n.pro.phase.runArgs = some args →
      args.inst ≤ s.node.acc.instance_h + 1) : HistoryInv (s.move n) where
  decides := h.decides.adds ha
  follows := h.follows.moves hm
  asked args hargs := (h.asked args hargs).trans (Nat.succ_le_succ ha.instance_h_le)
  phase args hargs := (hphase args hargs).trans (Nat.succ_le_succ ha.instance_h_le)

/-- The config module asks for the view after the one that it is at. -/
theorem HistoryInv.ask (h : HistoryInv s) (hinst : args.inst = s.cfg.myvid + 1) :
    HistoryInv (s.ask args) where
  decides := h.decides
  follows := h.follows
  asked := List.forall_mem_append.mpr ⟨h.asked, List.forall_mem_singleton.mpr
    (hinst.le.trans (Nat.succ_le_succ h.follows.myvid_le))⟩
  phase := h.phase

/-- `add` asks for the view after the one that `config` is at. -/
theorem inst_add {c : Config} {m : String} {vid : ℕ} (h : c.add m vid = some args) :
    args.inst = c.myvid + 1 := by
  unfold Config.add at h
  split_ifs at h
  exact congrArg RunArgs.inst (Option.some.inj h).symm

/-- Every event keeps the invariant. -/
theorem historyInv_next {s s' : NodeHistory} {e : HistoryEvent} (h : HistoryInv s)
    (hs : s.next e = some s') : HistoryInv s' := by
  cases e with
  | handle req =>
    obtain ⟨-, ⟨⟩⟩ := Option.ite_none_left_eq_some.mp hs
    refine h.move (adds_handle s.node req) (moves_handle s.node req) fun args hargs => ?_
    rw [pro_handle] at hargs
    exact h.phase args hargs
  | add m vid =>
    rw [← Option.some.inj hs]
    cases hargs : s.cfg.add m vid with
    | none => exact h
    | some args => exact h.ask (inst_add hargs)
  | remove m =>
    rw [← Option.some.inj hs]
    exact h.ask rfl
  | run k =>
    obtain ⟨args, hargs, hs⟩ := Option.bind_eq_some_iff.mp hs
    obtain ⟨-, ⟨⟩⟩ := Option.ite_none_left_eq_some.mp hs
    have hmove : HistoryInv (s.move (s.node.run args)) := by
      refine h.move (Adds.refl _) (Moves.same rfl rfl rfl) fun args' hargs' => ?_
      rcases runArgs_run hargs' with rfl | hon
      · exact h.asked _ (List.mem_of_getElem? hargs)
      · exact h.phase args' hon
    exact ⟨hmove.decides, hmove.follows,
      fun args' hargs' => hmove.asked args' (List.mem_of_mem_eraseIdx hargs'), hmove.phase⟩
  | send c =>
    obtain ⟨-, ⟨⟩⟩ := Option.ite_none_left_eq_some.mp hs
    exact h.move (Adds.refl _) (Moves.same rfl rfl rfl) h.phase
  | skip =>
    obtain ⟨-, ⟨⟩⟩ := Option.ite_none_left_eq_some.mp hs
    exact h.move (Adds.refl _) (Moves.same rfl rfl rfl)
      fun args hargs => h.phase args (runArgs_skip hargs)
  | receive res =>
    obtain ⟨-, ⟨⟩⟩ := Option.ite_none_left_eq_some.mp hs
    exact h.move (adds_receive h.phase res) (moves_receive s.node res)
      fun args hargs => h.phase args (runArgs_receive hargs)
  | upcall k =>
    obtain ⟨u, hu, hs⟩ := Option.bind_eq_some_iff.mp hs
    obtain ⟨-, ⟨⟩⟩ := Option.ite_none_left_eq_some.mp hs
    obtain ⟨hacc, hup⟩ := upcalled_eq s.node k u
    -- The acceptor stays as it is, and so does its history.
    have hadds : Adds s.node.acc (s.node.upcalled k u).acc := hacc ▸ Adds.refl s.node.acc
    refine ⟨h.decides.adds hadds, ?_, ?_, ?_⟩
    · show Follows (s.node.upcalled k u).acc (s.node.upcalled k u).upcalls _
      rw [hacc, hup]
      exact h.follows.upcall hu
    · show ∀ args ∈ s.asked, args.inst ≤ (s.node.upcalled k u).acc.instance_h + 1
      rw [hacc]
      exact h.asked
    · intro args hargs
      show args.inst ≤ (s.node.upcalled k u).acc.instance_h + 1
      rw [hacc]
      exact h.phase args (runArgs_upcalled hargs)

/-- The constructor commits the first instance at the first node, if its log has none. -/
theorem adds_construct {first : Bool} {me value log : String} {acc₀ acc : Acceptor}
    (hread : (Acceptor.fresh me log).logread = some acc₀)
    (h : Acceptor.construct first me value log = some acc) : Adds acc₀ acc := by
  rw [Acceptor.construct, hread, Option.map_some, Option.some.injEq] at h
  rw [← h]
  split_ifs with hfirst
  · refine Adds.commit value ?_ ?_ ?_
    · rw [hfirst.1]
    · rw [hfirst.1]
    · rw [hfirst.1]
      exact log_loginstance _ _ _
  · exact Adds.refl acc₀

/-- A node starts with the history of its log. -/
theorem historyInv_init {first me : String} (h : (historySystem first me).init s) :
    HistoryInv s := by
  obtain ⟨rs, log, acc₀, acc, hrs, htext, hread, hcons, rfl⟩ := h
  have hreplay : (Acceptor.fresh me log).logread = some (replayAll rs (.fresh me log)) :=
    logread_eq_replay hrs.wellFormed htext
  obtain rfl : acc₀ = replayAll rs (.fresh me log) := Option.some.inj (hread.symm.trans hreplay)
  have hinit : (nodeSystem first me).init ⟨Node.start acc, Config.construct me acc⟩ :=
    ⟨rs, log, acc, hrs.isLog, htext, hcons, rfl⟩
  refine ⟨(decides_replayAll hrs htext).adds (adds_construct hread hcons), (nodeInv_init hinit).1,
    by simp, ?_⟩
  rintro args ⟨⟩

/-- The invariant holds in every state of a run. -/
theorem historyInv_of_reachable {first me : String}
    (h : (historySystem first me).Reachable System.anything s) : HistoryInv s :=
  h.invariant (I := HistoryInv) (fun _ hinit => historyInv_init hinit)
    fun _ _ _ hI _ hs => historyInv_next hI hs

end SimpleDfs
