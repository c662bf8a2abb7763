import SimpleDfs.Config.Decisions

/-!
# The decided histories of a cluster

Every node of a cluster runs as a node on its own (`reachable_at`), so that its history has no gap.
In a cluster, moreover, a value that is committed is a view that was proposed: `add` appends a node,
and the node that `remove_wo` runs at stays a member, so that no view is empty (`Spoken`). With
both, the answer for an old instance is never the empty string that `operator[]` makes
(`history_has_no_gap`).
-/

namespace SimpleDfs

open Paxos Config

/-! ## The nodes of a cluster -/

/-- Node `p` of a cluster, with the instances that were committed at it. -/
def ConfigCluster.at (s : ConfigCluster) (p : String) (commits : List (ℕ × String)) : NodeHistory :=
  ⟨s.paxos.node p, s.cfg p, s.asked p, commits⟩

/-- The cluster of nodes that start on their logs, which have no empty views. -/
def historyCluster (first : String) : System ConfigCluster ViewEvent where
  init s := s.paxos.calls = [] ∧ s.paxos.replies = [] ∧ ∀ p, ∃ commits,
    (historySystem first p).init (s.at p commits) ∧ ∀ c ∈ commits, c.2 ≠ ""
  step := ConfigCluster.next

/-- A step of a proposer, or of the network, is a step of one node. -/
theorem exists_move {s c : Cluster} {e : Event} (hrun : ∀ p args, e ≠ .run p args)
    (hup : ∀ p k, e ≠ .upcall p k) (hs : s.next e = some c) :
    ∃ q n ev, c.node = Function.update s.node q n ∧
      ∀ t : NodeHistory, t.node = s.node q → t.next ev = some (t.move n) := by
  cases e with
  | run p args => exact absurd rfl (hrun p args)
  | send p =>
    simp only [Cluster.next] at hs
    split_ifs at hs with hno
    obtain ⟨⟨d, req⟩, -, rfl⟩ := Option.map_eq_some_iff.mp hs
    refine ⟨p, (s.node p).sending ⟨p, (s.node p).pro.xid, d, req⟩,
      .send ⟨p, (s.node p).pro.xid, d, req⟩, rfl, fun t ht => ?_⟩
    rw [NodeHistory.next, ht, if_neg (not_or.mp hno).1]
  | skip p =>
    obtain ⟨hno, ⟨⟩⟩ := Option.ite_none_left_eq_some.mp hs
    refine ⟨p, _, .skip, rfl, fun t ht => ?_⟩
    rw [NodeHistory.next, ht, if_neg hno]
  | handle k =>
    obtain ⟨call, -, hs⟩ := Option.bind_eq_some_iff.mp hs
    obtain ⟨hno, ⟨⟩⟩ := Option.ite_none_left_eq_some.mp hs
    refine ⟨call.dst, _, .handle call.req, rfl, fun t ht => ?_⟩
    rw [NodeHistory.next, ht, if_neg hno]
  | reply k =>
    obtain ⟨r, -, hs⟩ := Option.bind_eq_some_iff.mp hs
    obtain ⟨hno, ⟨⟩⟩ := Option.ite_none_left_eq_some.mp hs
    refine ⟨r.call.src, _, .receive r.res, rfl, fun t ht => ?_⟩
    obtain ⟨hdown, hwait⟩ := not_or.mp hno
    have hsome : ¬((s.node r.call.src).down = true ∨ (s.node r.call.src).pro.waiting = none) := by
      rw [not_not.mp hwait]
      simpa using hdown
    rw [NodeHistory.next, ht, if_neg hsome]
  | upcall p k => exact absurd rfl (hup p k)

/-- An event of the cluster is an event of one node, and the others stay as they are. -/
theorem exists_event {s s' : ConfigCluster} {e : ViewEvent} (hs : s.next e = some s') :
    ∃ q, (∀ p ≠ q, ∀ commits, s'.at p commits = s.at p commits) ∧
      ∀ commits, ∃ ev commits', (s.at q commits).next ev = some (s'.at q commits') := by
  cases e with
  | paxos pe =>
    cases pe with
    | run p args => cases hs
    | upcall p k => cases hs
    | send p | skip p | handle k | reply k =>
      obtain ⟨c, hnext, rfl⟩ := Option.map_eq_some_iff.mp hs
      obtain ⟨q, n, ev, hnode, hstep⟩ := exists_move (by simp) (by simp) hnext
      refine ⟨q, fun p hp commits => ?_, fun commits =>
        ⟨ev, commits ++ newly (s.paxos.node q).acc n.acc, (hstep _ rfl).trans ?_⟩⟩
      · simp only [ConfigCluster.at, hnode, Function.update_of_ne hp]
      · simp only [ConfigCluster.at, hnode, Function.update_self]
        rfl
  | add q m vid =>
    obtain ⟨-, ⟨⟩⟩ := Option.ite_none_right_eq_some.mp hs
    refine ⟨q, fun p hp commits => ?_, fun commits => ⟨.add m vid, commits, ?_⟩⟩
    all_goals cases hargs : (s.cfg q).add m vid
    · rfl
    · simp only [ConfigCluster.at, ConfigCluster.ask, Option.elim, Function.update_of_ne hp]
    · simp only [NodeHistory.next, ConfigCluster.at, hargs, Option.elim]
    · simp only [NodeHistory.next, ConfigCluster.at, ConfigCluster.ask, NodeHistory.ask, hargs,
        Option.elim, Function.update_self]
  | remove q m =>
    obtain ⟨-, ⟨⟩⟩ := Option.ite_none_right_eq_some.mp hs
    refine ⟨q, fun p hp commits => ?_, fun commits => ⟨.remove m, commits, ?_⟩⟩
    · simp only [ConfigCluster.at, ConfigCluster.ask, Function.update_of_ne hp]
    · simp only [NodeHistory.next, ConfigCluster.at, ConfigCluster.ask, NodeHistory.ask,
        Function.update_self]
  | run q k =>
    obtain ⟨args, hargs, hs⟩ := Option.bind_eq_some_iff.mp hs
    obtain ⟨c, hnext, rfl⟩ := Option.map_eq_some_iff.mp hs
    obtain ⟨hno, ⟨⟩⟩ := Option.ite_none_left_eq_some.mp hnext
    refine ⟨q, fun p hp commits => ?_, fun commits => ⟨.run k,
      commits ++ newly (s.paxos.node q).acc ((s.paxos.node q).run args).acc, ?_⟩⟩
    · simp only [ConfigCluster.at, Cluster.set, Function.update_of_ne hp]
    · simp only [NodeHistory.next, ConfigCluster.at, Cluster.set, Function.update_self, hargs,
        Option.bind_some]
      exact if_neg hno
  | upcall q k =>
    obtain ⟨u, hu, hs⟩ := Option.bind_eq_some_iff.mp hs
    obtain ⟨c, hnext, rfl⟩ := Option.map_eq_some_iff.mp hs
    rw [Cluster.next, hu, Option.bind_some] at hnext
    obtain ⟨hno, ⟨⟩⟩ := Option.ite_none_left_eq_some.mp hnext
    refine ⟨q, fun p hp commits => ?_, fun commits => ⟨.upcall k,
      commits ++ newly (s.paxos.node q).acc ((s.paxos.node q).upcalled k u).acc, ?_⟩⟩
    · simp only [ConfigCluster.at, Cluster.set, Function.update_of_ne hp]
    · simp only [NodeHistory.next, ConfigCluster.at, Cluster.set, Function.update_self, hu,
        Option.bind_some]
      exact if_neg hno

variable {s : ConfigCluster} {n : Node} {first : String}

/-- Every node of a cluster runs as a node on its own. -/
theorem reachable_at (h : (historyCluster first).Reachable System.anything s) (p : String) :
    ∃ commits, (historySystem first p).Reachable System.anything (s.at p commits) := by
  refine h.invariant (I := fun s => ∃ commits,
    (historySystem first p).Reachable System.anything (s.at p commits)) ?_ ?_
  · rintro s ⟨-, -, hnodes⟩
    obtain ⟨commits, hinit, -⟩ := hnodes p
    exact ⟨commits, System.Reachable.of_init hinit⟩
  · rintro s e s' ⟨commits, hreach⟩ - hs
    obtain ⟨q, hother, hself⟩ := exists_event hs
    by_cases hp : p = q
    · subst hp
      obtain ⟨ev, commits', hev⟩ := hself commits
      exact ⟨commits', hreach.steps (Relation.ReflTransGen.single ⟨ev, trivial, hev⟩)⟩
    · exact ⟨commits, hother p hp commits ▸ hreach⟩

/-! ## No view is empty -/

/-- The view that a config module asks for is not empty, and not the view `0`. -/
def Paxos.RunArgs.Speaks (args : RunArgs) : Prop := 1 ≤ args.inst ∧ args.newv ≠ ""

/-- The values of a run are not empty. -/
def Paxos.Phase.Speaks : Phase → Prop
  | preparing args _ _ _ _ => args.Speaks
  | accepting args v _ _ => args.Speaks ∧ v ≠ ""
  | deciding args v _ => args.Speaks ∧ v ≠ ""
  | stable | committing => True

/-- The requests that a run makes: none is for the instance `0`, and a decision is not empty. -/
def Paxos.Req.Speaks : Req → Prop
  | prepare arg => 1 ≤ arg.inst
  | accept _ => True
  | decide arg => arg.v ≠ ""

/-- The results of such requests: the value of an old instance is not empty. -/
def Paxos.Res.Speaks : Res → Prop
  | prepare res => res.oldinstance = true → res.v_a ≠ ""
  | accept _ | decide => True

/-- Every instance that the acceptor has passed has a value. -/
def Filled (acc : Acceptor) : Prop := ∀ i, 1 ≤ i → i ≤ acc.instance_h → acc.values i ≠ ""

/-- The code between the loops proposes a value that is not empty. -/
theorem speaks_settle {phase : Phase} (h : phase.Speaks) : phase.settle.Speaks := by
  unfold Phase.settle
  split
  · split
    · refine ⟨h, ?_⟩
      -- A value of another node is taken only when it has a length.
      split_ifs with hlen
      · exact h.2
      · rintro rfl
        exact hlen rfl
    · trivial
  · split
    · exact h
    · trivial
  · trivial
  · exact h

/-- So does a loop that goes on to the next node. -/
theorem speaks_skip {phase : Phase} (h : phase.Speaks) : phase.skip.Speaks := by
  unfold Phase.skip
  split
  · exact speaks_settle h
  · exact speaks_settle h
  · exact speaks_settle h
  · exact h

/-- A run that starts asks for what its config module asked for. -/
theorem speaks_run (h : n.pro.phase.Speaks) {args : RunArgs} (hargs : args.Speaks) :
    (n.run args).pro.phase.Speaks := by
  unfold Node.run Proposer.run
  dsimp only
  split
  · exact speaks_settle hargs
  · exact h

/-- The requests of a run. -/
theorem speaks_request {pro : Proposer} (h : pro.phase.Speaks) {d : String} {req : Req}
    (hreq : pro.request = some (d, req)) : req.Speaks := by
  unfold Proposer.request at hreq
  split at hreq
  next hphase =>
    cases hreq
    rw [hphase] at h
    exact h.1
  next hphase =>
    cases hreq
    trivial
  next hphase =>
    cases hreq
    rw [hphase] at h
    exact h.2
  next => cases hreq

/-- What a run makes of a result. -/
theorem speaks_receive (h : n.pro.phase.Speaks) (res : Res) :
    (n.receive res).pro.phase.Speaks := by
  unfold Node.receive
  split
  next hphase =>
    rw [hphase] at h
    split_ifs
    · trivial
    · trivial
    all_goals exact speaks_settle h
  next hphase =>
    rw [hphase] at h
    exact speaks_settle h
  next hphase =>
    rw [hphase] at h
    exact speaks_settle h
  next => exact h

/-- An upcall that runs leaves the run, or ends it. -/
theorem speaks_upcalled (h : n.pro.phase.Speaks) (k : ℕ) (u : Upcall) :
    (n.upcalled k u).pro.phase.Speaks := by
  unfold Node.upcalled
  dsimp only
  split_ifs
  · trivial
  · exact h

/-- A step that commits no empty value fills the instances. -/
theorem Filled.adds {acc acc' : Acceptor} (h : Filled acc) (ha : Adds acc acc')
    (hnew : ∀ c ∈ newly acc acc', c.2 ≠ "") : Filled acc' := by
  intro i hi hle
  cases ha with
  | same hinst hvals => exact hvals ▸ h i hi (hinst ▸ hle)
  | record _ hinst hvals => exact hvals ▸ h i hi (hinst ▸ hle)
  | commit v hinst hvals =>
    rw [newly, hinst, hvals, Function.update_self, if_pos (Nat.lt_succ_self _)] at hnew
    rw [hvals]
    by_cases hlast : i = acc.instance_h + 1
    · rw [hlast, Function.update_self]
      exact hnew _ (List.mem_singleton.mpr rfl)
    · rw [Function.update_of_ne hlast]
      exact h i hi (by omega)

/-- What `commit_wo` commits is its value. -/
theorem newly_commitWo {acc : Acceptor} {inst : ℕ} {v : String} :
    ∀ c ∈ newly acc (acc.commitWo inst v), c.2 = v := by
  intro c hc
  unfold newly at hc
  split_ifs at hc with hlt
  · obtain rfl := List.mem_singleton.mp hc
    by_cases hnew : acc.instance_h < inst
    · obtain ⟨hinst, hval⟩ := values_commitWo_self hnew v
      rw [hinst]
      exact hval
    · rw [Acceptor.commitWo, if_neg hnew] at hlt
      exact absurd hlt (lt_irrefl _)
  · cases hc

/-- A step that changes nothing of the acceptor commits nothing. -/
theorem newly_self (acc : Acceptor) : newly acc acc = [] := if_neg (lt_irrefl _)

/-- What `decidereq` commits is the value that it is told. -/
theorem newly_decidereq {acc acc' : Acceptor} {arg : DecideArg}
    (h : acc.decidereq arg = some acc') : ∀ c ∈ newly acc acc', c.2 = arg.v := by
  unfold Acceptor.decidereq at h
  split_ifs at h with hnext hval hold
  · rw [← Option.some.inj h, ← hval]
    exact newly_commitWo
  · rw [← Option.some.inj h, newly_self]
    exact List.forall_mem_nil _

/-- A handler that takes such a request leaves the instances filled, and gives such a result. -/
theorem filled_handle (h : Filled n.acc) {req : Req} (hreq : req.Speaks) :
    Filled (n.handle req).1.acc ∧ ∀ res, (n.handle req).2 = some res → res.Speaks := by
  have hadds := adds_handle n req
  cases req with
  | prepare arg =>
    obtain ⟨-, hinst, -⟩ := frame_preparereq n.acc arg
    refine ⟨h.adds hadds fun c hc => ?_, fun res hres => ?_⟩
    · exact absurd hc (by simp [newly, Node.handle, hinst])
    · obtain rfl := Option.some.inj hres
      intro hold
      obtain ⟨hle, hval⟩ := preparereq_oldinstance hold
      rw [hval]
      exact h arg.inst hreq hle
  | accept arg =>
    obtain ⟨-, hinst, -⟩ := frame_acceptreq n.acc arg
    refine ⟨h.adds hadds fun c hc => ?_, fun res hres => ?_⟩
    · exact absurd hc (by simp [newly, Node.handle, hinst])
    · obtain rfl := Option.some.inj hres
      trivial
  | decide arg =>
    refine ⟨h.adds hadds fun c hc => ?_, fun res hres => ?_⟩
    · have hc' : c ∈ newly n.acc (n.decidereq arg).acc := hc
      unfold Node.decidereq at hc'
      split at hc'
      next acc hacc =>
        rw [newly_decidereq hacc c hc']
        exact hreq
      next =>
        rw [newly_self] at hc'
        cases hc'
    · obtain ⟨-, ⟨⟩⟩ := Option.ite_none_right_eq_some.mp hres
      trivial

/-- A proposer that takes such a result leaves the instances filled. -/
theorem filled_receive (h : Filled n.acc)
    (hphase : ∀ args, n.pro.phase.runArgs = some args → args.inst ≤ n.acc.instance_h + 1)
    {res : Res} (hres : res.Speaks) : Filled (n.receive res).acc := by
  refine h.adds (adds_receive hphase res) fun c hc => ?_
  have hnone : c ∉ newly n.acc n.acc := by
    rw [newly_self]
    exact List.not_mem_nil
  unfold Node.receive at hc
  split at hc
  next args d todo accepts highest_seen v res hon =>
    split_ifs at hc with hold
    · rw [newly_commitWo c hc]
      exact hres hold
    · rw [newly_commitWo c hc]
      exact hres hold
    all_goals exact absurd hc hnone
  all_goals exact absurd hc hnone

/-- What holds of the values in every state of a run of a cluster. -/
structure Spoken (s : ConfigCluster) : Prop where
  /-- Every instance that a node has passed has a value. -/
  filled : ∀ p, Filled (s.paxos.node p).acc
  /-- No empty view is asked for. -/
  asked : ∀ p, ∀ args ∈ s.asked p, args.Speaks
  /-- No proposer proposes an empty value. -/
  phase : ∀ p, (s.paxos.node p).pro.phase.Speaks
  /-- The calls. -/
  calls : ∀ c ∈ s.paxos.calls, c.req.Speaks
  /-- The replies. -/
  replies : ∀ r ∈ s.paxos.replies, r.res.Speaks

/-- A view with a member is not empty. -/
theorem value_ne_empty {m : List String} (h : m ≠ []) : value m ≠ "" := by
  intro hv
  have hchars := toList_value m
  rw [hv] at hchars
  cases m with
  | nil => exact h rfl
  | cons x m => simp at hchars

/-- Another state of a node keeps the values in order. -/
theorem Spoken.set (h : Spoken s) {p : String} (hacc : Filled n.acc) (hphase : n.pro.phase.Speaks) :
    Spoken { s with paxos := s.paxos.set p n } where
  filled := Cluster.forall_set (Q := fun _ n => Filled n.acc) hacc fun q _ => h.filled q
  asked := h.asked
  phase := Cluster.forall_set (Q := fun _ n => n.pro.phase.Speaks) hphase fun q _ => h.phase q
  calls := h.calls
  replies := h.replies

/-- A config module asks for a view that is not empty. -/
theorem Spoken.ask (h : Spoken s) {p : String} {args : RunArgs} (hargs : args.Speaks) :
    Spoken (s.ask p args) where
  filled := h.filled
  asked q := by
    show ∀ a ∈ Function.update s.asked p (s.asked p ++ [args]) q, a.Speaks
    by_cases hq : q = p
    · rw [hq, Function.update_self]
      exact List.forall_mem_append.mpr ⟨h.asked p, List.forall_mem_singleton.mpr hargs⟩
    · rw [Function.update_of_ne hq]
      exact h.asked q
  phase := h.phase
  calls := h.calls
  replies := h.replies

/-- Every event keeps the values in order. -/
theorem spoken_next {s s' : ConfigCluster} {e : ViewEvent} (h : Spoken s)
    (hnodes : ∀ p, ∃ commits, HistoryInv (s.at p commits)) (hs : s.next e = some s') :
    Spoken s' := by
  cases e with
  | paxos pe =>
    cases pe with
    | run p args => cases hs
    | upcall p k => cases hs
    | send p =>
      obtain ⟨c, hnext, rfl⟩ := Option.map_eq_some_iff.mp hs
      simp only [Cluster.next] at hnext
      split_ifs at hnext
      obtain ⟨⟨d, req⟩, hreq, rfl⟩ := Option.map_eq_some_iff.mp hnext
      have hset := h.set (p := p)
        (n := (s.paxos.node p).sending ⟨p, (s.paxos.node p).pro.xid, d, req⟩)
        (h.filled p) (h.phase p)
      exact ⟨hset.filled, h.asked, hset.phase, List.forall_mem_append.mpr ⟨h.calls,
        List.forall_mem_singleton.mpr (speaks_request (h.phase p) hreq)⟩, h.replies⟩
    | skip p =>
      obtain ⟨c, hnext, rfl⟩ := Option.map_eq_some_iff.mp hs
      obtain ⟨-, ⟨⟩⟩ := Option.ite_none_left_eq_some.mp hnext
      exact h.set (h.filled p) (speaks_skip (h.phase p))
    | handle k =>
      obtain ⟨c, hnext, rfl⟩ := Option.map_eq_some_iff.mp hs
      obtain ⟨call, hcall, hnext⟩ := Option.bind_eq_some_iff.mp hnext
      obtain ⟨-, ⟨⟩⟩ := Option.ite_none_left_eq_some.mp hnext
      obtain ⟨hfilled, hres⟩ := filled_handle (h.filled call.dst)
        (h.calls call (List.mem_of_getElem? hcall))
      have hset := h.set (p := call.dst) hfilled (by rw [pro_handle]; exact h.phase call.dst)
      refine ⟨hset.filled, h.asked, hset.phase, h.calls, List.forall_mem_append.mpr
        ⟨h.replies, fun r hr => ?_⟩⟩
      obtain ⟨res, hsome, rfl⟩ := Option.map_eq_some_iff.mp (Option.mem_toList.mp hr)
      exact hres res hsome
    | reply k =>
      obtain ⟨c, hnext, rfl⟩ := Option.map_eq_some_iff.mp hs
      obtain ⟨r, hr, hnext⟩ := Option.bind_eq_some_iff.mp hnext
      obtain ⟨-, ⟨⟩⟩ := Option.ite_none_left_eq_some.mp hnext
      obtain ⟨commits, hinv⟩ := hnodes r.call.src
      exact h.set (filled_receive (h.filled _) hinv.phase (h.replies r (List.mem_of_getElem? hr)))
        (speaks_receive (h.phase _) _)
  | add p m vid =>
    obtain ⟨-, ⟨⟩⟩ := Option.ite_none_right_eq_some.mp hs
    cases hargs : (s.cfg p).add m vid with
    | none => exact h
    | some args =>
      refine h.ask ⟨by rw [inst_add hargs]; omega, ?_⟩
      unfold Config.add at hargs
      obtain ⟨-, ⟨⟩⟩ := Option.ite_none_left_eq_some.mp hargs
      exact value_ne_empty (by simp)
  | remove p m =>
    obtain ⟨hvictim, ⟨⟩⟩ := Option.ite_none_right_eq_some.mp hs
    -- The node that removes another one stays a member.
    obtain ⟨hself, -, hne⟩ := mem_of_heartbeatVictims hvictim
    obtain ⟨commits, hinv⟩ := hnodes p
    have hmems : (s.cfg p).mems = Config.getViewWo (s.paxos.node p).acc (s.cfg p).myvid :=
      hinv.follows.mems
    rw [← hmems] at hself
    have hstays : (s.cfg p).me ∈ (s.cfg p).mems.filter fun x => x ≠ m :=
      List.mem_filter.mpr ⟨hself, by simpa using hne.symm⟩
    exact h.ask ⟨by simp [Config.removeWo], value_ne_empty (List.ne_nil_of_mem hstays)⟩
  | run p k =>
    obtain ⟨args, hargs, hs⟩ := Option.bind_eq_some_iff.mp hs
    obtain ⟨c, hnext, rfl⟩ := Option.map_eq_some_iff.mp hs
    obtain ⟨-, ⟨⟩⟩ := Option.ite_none_left_eq_some.mp hnext
    have hset := h.set (p := p) (n := (s.paxos.node p).run args) (h.filled p)
      (speaks_run (h.phase p) (h.asked p args (List.mem_of_getElem? hargs)))
    refine ⟨hset.filled, fun q => ?_, hset.phase, h.calls, h.replies⟩
    show ∀ a ∈ Function.update s.asked p ((s.asked p).eraseIdx k) q, a.Speaks
    by_cases hq : q = p
    · rw [hq, Function.update_self]
      exact fun a ha => h.asked p a (List.mem_of_mem_eraseIdx ha)
    · rw [Function.update_of_ne hq]
      exact h.asked q
  | upcall p k =>
    obtain ⟨u, hu, hs⟩ := Option.bind_eq_some_iff.mp hs
    obtain ⟨c, hnext, rfl⟩ := Option.map_eq_some_iff.mp hs
    rw [Cluster.next, hu, Option.bind_some] at hnext
    obtain ⟨-, ⟨⟩⟩ := Option.ite_none_left_eq_some.mp hnext
    have hset := h.set (p := p) (n := (s.paxos.node p).upcalled k u)
      (by rw [(upcalled_eq _ k u).1]; exact h.filled p) (speaks_upcalled (h.phase p) k u)
    exact ⟨hset.filled, h.asked, hset.phase, h.calls, h.replies⟩

/-- The values are in order when the nodes start. -/
theorem spoken_init (h : (historyCluster first).init s) :
    Spoken s := by
  obtain ⟨hcalls, hreplies, hnodes⟩ := h
  have hstart : ∀ p, Filled (s.paxos.node p).acc ∧ (∀ args ∈ s.asked p, args.Speaks) ∧
      (s.paxos.node p).pro.phase.Speaks := by
    intro p
    obtain ⟨commits, hinit, hne⟩ := hnodes p
    have hdec : Decides (s.paxos.node p).acc commits := (historyInv_init hinit).decides
    refine ⟨fun i hi hle => ?_, ?_, ?_⟩
    · obtain ⟨c, hc, rfl⟩ := hdec.exists_commit hi hle
      rw [hdec.values c hc]
      exact hne c hc
    all_goals
      obtain ⟨rs, log, acc₀, acc, -, -, -, -, heq⟩ := hinit
      simp only [ConfigCluster.at, NodeHistory.mk.injEq] at heq
      obtain ⟨hnode, -, hasked, -⟩ := heq
    · rw [hasked]
      exact List.forall_mem_nil _
    · rw [hnode]
      trivial
  exact ⟨fun p => (hstart p).1, fun p => (hstart p).2.1, fun p => (hstart p).2.2,
    hcalls ▸ List.forall_mem_nil _, hreplies ▸ List.forall_mem_nil _⟩

/-- The values are in order in every state of a run of a cluster. -/
theorem spoken_of_reachable (h : (historyCluster first).Reachable System.anything s) :
    Spoken s := by
  have hboth : Spoken s ∧ (historyCluster first).Reachable System.anything s := by
    refine h.invariant (I := fun s => Spoken s ∧ (historyCluster first).Reachable System.anything s)
      (fun s hinit => ⟨spoken_init hinit, System.Reachable.of_init hinit⟩) ?_
    rintro s e s' ⟨hspoken, hreach⟩ - hs
    refine ⟨spoken_next hspoken (fun p => ?_) hs,
      hreach.steps (Relation.ReflTransGen.single ⟨e, trivial, hs⟩)⟩
    obtain ⟨commits, hat⟩ := reachable_at hreach p
    exact ⟨commits, historyInv_of_reachable hat⟩
  exact hboth.1

/-! ## No gap -/

/-- The decided history of a node has no gap. -/
structure NoGap (s : NodeHistory) : Prop where
  /-- The instances are committed in the order `1`, `2` and so on, up to `instance_h`. -/
  order : s.commits.map Prod.fst = List.range' 1 s.node.acc.instance_h
  /-- The `done` records of the log are those of the commits. -/
  log : ∃ rs, s.node.acc.log.toList = logChars rs ∧ rs.filterMap Record.decided = s.commits
  /-- `config` is at no later view. -/
  myvid_le : s.cfg.myvid ≤ s.node.acc.instance_h
  /-- An old instance is answered with the value that was committed for it. -/
  reply : ∀ arg : PrepareArg, 1 ≤ arg.inst →
    (s.node.acc.preparereq arg).2.oldinstance = true →
      (arg.inst, (s.node.acc.preparereq arg).2.v_a) ∈ s.commits

/-- The decided history of a node has no gap, whatever requests and replies reach it; and in a
cluster whose logs have no empty view, no node answers for an old instance with an empty value. -/
theorem history_has_no_gap :
    (∀ first me s, (historySystem first me).Reachable System.anything s → NoGap s) ∧
      ∀ first s, (historyCluster first).Reachable System.anything s →
        ∀ p (arg : PrepareArg), 1 ≤ arg.inst →
          ((s.paxos.node p).acc.preparereq arg).2.oldinstance = true →
            ((s.paxos.node p).acc.preparereq arg).2.v_a ≠ "" := by
  refine ⟨fun first me s h => ?_, fun first s h p arg hinst hold => ?_⟩
  · have hinv := historyInv_of_reachable h
    refine ⟨hinv.decides.order, hinv.decides.log, hinv.follows.myvid_le, fun arg hinst hold => ?_⟩
    obtain ⟨hle, hval⟩ := preparereq_oldinstance hold
    obtain ⟨c, hc, heq⟩ := hinv.decides.exists_commit hinst hle
    rw [hval, ← heq, hinv.decides.values c hc]
    exact hc
  · obtain ⟨hle, hval⟩ := preparereq_oldinstance hold
    rw [hval]
    exact (spoken_of_reachable h).filled p arg.inst hinst hle

/-- The acceptor of a node without a log file, in a cluster whose first node is `1`. -/
def startAcceptor (p : String) : Acceptor :=
  if p = "1" then
    { (Acceptor.fresh p "").loginstance 1 p with
      values := Function.update (fun _ => "") 1 p
      instance_h := 1 }
  else Acceptor.fresh p ""

/-- It is what the constructor makes. -/
theorem construct_startAcceptor (p : String) :
    Acceptor.construct (p == "1") p p "" = some (startAcceptor p) := by
  have hread : (Acceptor.fresh p "").logread = some (Acceptor.fresh p "") := rfl
  rw [Acceptor.construct, hread, Option.map_some, startAcceptor]
  by_cases hp : p = "1"
  · rw [if_pos ⟨rfl, beq_iff_eq.mpr hp⟩, if_pos hp]
    rfl
  · rw [if_neg fun h => hp (beq_iff_eq.mp h.2), if_neg hp]

/-- A node that starts without a log file. -/
def startNode (p : String) : NodeHistory :=
  ⟨Node.start (startAcceptor p), Config.construct p (startAcceptor p), [],
    newly (Acceptor.fresh p "") (startAcceptor p)⟩

/-- It is a start of the node. -/
theorem init_startNode (p : String) : (historySystem "1" p).init (startNode p) :=
  ⟨[], "", Acceptor.fresh p "", startAcceptor p, ⟨by simp, 0, rfl⟩, rfl, rfl,
    construct_startAcceptor p, rfl⟩

/-- The nodes of a cluster that start without log files. -/
def startCluster : ConfigCluster where
  paxos := ⟨fun p => (startNode p).node, [], []⟩
  cfg p := (startNode p).cfg
  asked _ := []

/-- It is a start of the cluster. -/
theorem init_startCluster : (historyCluster "1").init startCluster := by
  refine ⟨rfl, rfl, fun p => ⟨_, init_startNode p, fun c hc => ?_⟩⟩
  by_cases hp : p = "1"
  · have hone : newly (Acceptor.fresh "1" "") (startAcceptor "1") = [(1, "1")] := by decide
    rw [hp, hone] at hc
    rw [List.mem_singleton.mp hc]
    decide
  · rw [startAcceptor, if_neg hp, newly_self] at hc
    cases hc

/-- Node `1` hears from its proposer that the second view was decided without it; and a cluster
decides its second view. -/
theorem history_has_no_gap_second_view :
    (∃ s, (historySystem "1" "1").Reachable System.anything s ∧
      s.commits = [(1, "1"), (2, "1 3 ")] ∧ NoGap s) ∧
    ∃ s, (historyCluster "1").Reachable System.anything s ∧
      ((s.paxos.node "1").acc.preparereq ⟨2, ⟨0, "1"⟩⟩).2.oldinstance = true ∧
      ((s.paxos.node "1").acc.preparereq ⟨2, ⟨0, "1"⟩⟩).2.v_a ≠ "" := by
  constructor
  · have hrun : ((historySystem "1" "1").exec (startNode "1") [.add "2" 1, .run 0,
        .send ⟨"1", 0, "1", .prepare ⟨2, ⟨1, "1"⟩⟩⟩,
        .receive (.prepare { PrepareRes.empty with oldinstance := true, v_a := "1 3 " }),
        .upcall 0]).map (·.commits) = some [(1, "1"), (2, "1 3 ")] := by decide
    obtain ⟨s, hexec, hcommits⟩ := Option.map_eq_some_iff.mp hrun
    have hreach := System.Reachable.of_exec hexec (init_startNode "1")
    exact ⟨s, hreach, hcommits, history_has_no_gap.1 _ _ _ hreach⟩
  · have hrun : ((historyCluster "1").exec startCluster [.add "1" "2" 1, .run "1" 0,
        .paxos (.send "1"), .paxos (.handle 0), .paxos (.reply 0), .paxos (.send "1"),
        .paxos (.handle 1), .paxos (.reply 1), .paxos (.send "1"), .paxos (.handle 2),
        .upcall "1" 0]).map (fun s =>
          ((s.paxos.node "1").acc.preparereq ⟨2, ⟨0, "1"⟩⟩).2.oldinstance) = some true := by decide
    obtain ⟨s, hexec, hold⟩ := Option.map_eq_some_iff.mp hrun
    have hreach := System.Reachable.of_exec hexec init_startCluster
    exact ⟨s, hreach, hold, history_has_no_gap.2 _ _ hreach "1" _ (by decide) hold⟩

end SimpleDfs
