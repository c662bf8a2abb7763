import SimpleDfs.Paxos.Preservation

/-!
# Agreement

In a run in which every request arrives timely, no two nodes commit different values for an instance
(`agreement`), and the assertions of `decidereq` hold (`decide_assertions`). In the runs of the code
nothing sees to this, and both fail: `acceptreq` takes a proposal of an instance that was decided
already (`late_accept_splits`), and `preparereq` and `acceptreq` take part in an instance beyond the
next one (`lagging_node_aborts`).
-/

namespace SimpleDfs.Paxos

/-! ## The events that meet the guards can be checked -/

instance (acc : Acceptor) : ∀ req, Decidable (Timely acc req)
  | .prepare arg => inferInstanceAs (Decidable (arg.inst ≤ acc.instance_h + 1 ∨ arg.n ≤ acc.n_h))
  | .accept arg => inferInstanceAs (Decidable (arg.inst = acc.instance_h + 1 ∨ arg.n < acc.n_h))
  | .decide _ => inferInstanceAs (Decidable True)

instance (s : Cluster) : ∀ e, Decidable (ArriveTimely s e)
  | .handle k => inferInstanceAs
      (Decidable (∀ c ∈ s.calls[k]?, Timely (s.node c.dst).acc c.req))
  | .run _ _ | .send _ | .skip _ | .reply _ | .upcall _ _ => inferInstanceAs (Decidable True)

instance (P : Setting) [∀ i v, Decidable (P.proposal i v)] (s : Cluster) :
    ∀ e, Decidable (RunsAgree P s e)
  | .run p args => inferInstanceAs (Decidable (args.cur_nodes = P.nodes args.inst ∧
      P.proposal args.inst args.newv ∧ args.inst ≤ (s.node p).acc.instance_h + 1 ∧
      (s.node p).pro.my_n.n + 1 ≠ 0))
  | .send _ | .skip _ | .handle _ | .reply _ | .upcall _ _ => inferInstanceAs (Decidable True)

instance (P : Setting) [∀ i v, Decidable (P.proposal i v)] (s : Cluster) (e : Event) :
    Decidable (InStep P s e) := inferInstanceAs (Decidable (_ ∧ _))

/-- The setting in which no instance was decided yet, and the proposers of every instance ask
`nodes`. -/
def Setting.fresh (nodes : List String) : Setting where
  nodes _ := nodes
  proposal _ v := v ≠ ""
  base _ := 0
  hist _ := ""
  proposal_ne _ _ h := h
  known i d hi T hT := by
    cases T with
    | nil => rw [not_majority_nil] at hT; cases hT
    | cons d' T => exact ⟨d', List.mem_cons_self, hi⟩

instance (nodes : List String) (i : ℕ) (v : String) :
    Decidable ((Setting.fresh nodes).proposal i v) := inferInstanceAs (Decidable (v ≠ ""))

/-- A cluster of nodes that start for the first time. -/
def Cluster.fresh : Cluster := ⟨fun p => Node.start (Acceptor.fresh p ""), [], []⟩

/-- It is a start of the fresh setting. -/
theorem init_fresh (nodes : List String) : (paxosSystem (.fresh nodes)).init Cluster.fresh :=
  ⟨rfl, rfl, fun _ => ⟨_, rfl, rfl, rfl, fun _ _ => rfl, rfl, rfl, rfl⟩⟩

/-! ## Agreement -/

/-- In a run in step, any two nodes that have an instance have the same value for it. -/
theorem agreement {P : Setting} {s : Cluster} (h : (paxosSystem P).Reachable (InStep P) s) {i : ℕ}
    {d d' : String} (hd : i ≤ (s.node d).acc.instance_h) (hd' : i ≤ (s.node d').acc.instance_h) :
    (s.node d).acc.values i = (s.node d').acc.values i :=
  (inv_of_reachable h).values_eq hd hd'

/-- Node `1` gets the value `x` accepted by nodes `1` and `2`, and decided there. -/
def oneProposer : List Event :=
  [.run "1" ⟨1, ["1", "2", "3"], "x"⟩,
    .send "1", .handle 0, .reply 0, .send "1", .handle 1, .reply 1, .skip "1",
    .send "1", .handle 2, .reply 2, .send "1", .handle 3, .reply 3,
    .send "1", .handle 4, .upcall "1" 0, .reply 4, .send "1", .handle 5, .upcall "2" 0, .reply 5]

/-- Two of three nodes commit the value of the only proposer. -/
theorem agreement_one_proposer : ∃ s,
    (paxosSystem (.fresh ["1", "2", "3"])).Reachable (InStep (.fresh ["1", "2", "3"])) s ∧
      (s.node "1").acc.values 1 = "x" ∧ (s.node "1").acc.values 1 = (s.node "2").acc.values 1 := by
  have hrun : ((paxosSystem (.fresh ["1", "2", "3"])).execGuarded (InStep (.fresh ["1", "2", "3"]))
      Cluster.fresh oneProposer).map (fun s => ((s.node "1").acc.instance_h,
        (s.node "2").acc.instance_h, (s.node "1").acc.values 1)) = some (1, 1, "x") := by decide
  obtain ⟨s, hexec, hdata⟩ := Option.map_eq_some_iff.mp hrun
  simp only [Prod.mk.injEq] at hdata
  obtain ⟨h₁, h₂, hv⟩ := hdata
  have hreach := System.Reachable.of_execGuarded hexec (init_fresh _)
  exact ⟨s, hreach, hv, agreement hreach h₁.ge h₂.ge⟩

/-- Nodes `1`, `2` and `3` promise the first proposal of node `2`. Node `1` then gets the value `x`
decided at nodes `1` and `2`, and they reset their promises. The accepts of node `2` arrive late,
and all three nodes accept the value `y` for the same instance, so that node `3` commits it. -/
def lateAccept : List Event :=
  [.run "2" ⟨1, ["1", "2", "3"], "y"⟩,
    .send "2", .handle 0, .reply 0, .send "2", .handle 1, .reply 1, .send "2", .handle 2, .reply 2,
    .run "1" ⟨1, ["1", "2", "3"], "x"⟩,
    .send "1", .handle 3, .reply 3, .send "1", .handle 4, .reply 4, .skip "1",
    .send "1", .handle 5, .reply 5, .send "1", .handle 6, .reply 6,
    .send "1", .handle 7, .upcall "1" 0, .reply 7, .send "1", .handle 8, .upcall "2" 0, .reply 8,
    .send "2", .handle 9, .reply 9, .send "2", .handle 10, .reply 10,
    .send "2", .handle 11, .reply 11, .skip "2", .skip "2", .send "2", .handle 12]

/-- Two nodes commit different values for the first instance, although all proposers agree on the
nodes. -/
theorem late_accept_splits : ∃ s,
    (paxosSystem (.fresh ["1", "2", "3"])).exec Cluster.fresh lateAccept = some s ∧
      (paxosSystem (.fresh ["1", "2", "3"])).Reachable (RunsAgree (.fresh ["1", "2", "3"])) s ∧
      1 ≤ (s.node "1").acc.instance_h ∧ 1 ≤ (s.node "3").acc.instance_h ∧
      (s.node "1").acc.values 1 = "x" ∧ (s.node "3").acc.values 1 = "y" := by
  have hrun : ((paxosSystem (.fresh ["1", "2", "3"])).execGuarded
      (RunsAgree (.fresh ["1", "2", "3"])) Cluster.fresh lateAccept).map
        (fun s => ((s.node "1").acc.instance_h, (s.node "3").acc.instance_h,
          (s.node "1").acc.values 1, (s.node "3").acc.values 1)) = some (1, 1, "x", "y") := by
    decide
  obtain ⟨s, hexec, hdata⟩ := Option.map_eq_some_iff.mp hrun
  simp only [Prod.mk.injEq] at hdata
  obtain ⟨h₁, h₃, hx, hy⟩ := hdata
  exact ⟨s, System.exec_of_execGuarded hexec, .of_execGuarded hexec (init_fresh _), h₁.ge, h₃.ge,
    hx, hy⟩

/-! ## The assertions of `decidereq` -/

/-- In a run in step, a decide request is for an instance that its node has committed, or for the
next one and carries the value that the node has accepted. -/
theorem decide_assertions {P : Setting} {s : Cluster}
    (h : (paxosSystem P).Reachable (InStep P) s) {c : Call} (hc : c ∈ s.calls) {arg : DecideArg}
    (hreq : c.req = .decide arg) : arg.inst ≤ (s.node c.dst).acc.instance_h ∨
      arg.inst = (s.node c.dst).acc.instance_h + 1 ∧ (s.node c.dst).acc.v_a = arg.v :=
  (inv_of_reachable h).decide_call hc hreq

/-- The first decide request of the only proposer carries the value that node `1` has accepted. -/
theorem decide_assertions_one_proposer : ∃ s c,
    (paxosSystem (.fresh ["1", "2", "3"])).Reachable (InStep (.fresh ["1", "2", "3"])) s ∧
      c ∈ s.calls ∧ c.req = .decide ⟨1, "x"⟩ ∧ (1 ≤ (s.node c.dst).acc.instance_h ∨
        1 = (s.node c.dst).acc.instance_h + 1 ∧ (s.node c.dst).acc.v_a = "x") := by
  have hrun : ((paxosSystem (.fresh ["1", "2", "3"])).execGuarded (InStep (.fresh ["1", "2", "3"]))
      Cluster.fresh (oneProposer.take 15)).map (fun s => s.calls[4]?) =
        some (some ⟨"1", 4, "1", .decide ⟨1, "x"⟩⟩) := by decide
  obtain ⟨s, hexec, hcall⟩ := Option.map_eq_some_iff.mp hrun
  have hreach := System.Reachable.of_execGuarded hexec (init_fresh _)
  have hmem := List.mem_of_getElem? hcall
  exact ⟨s, _, hreach, hmem, rfl, decide_assertions hreach hmem rfl⟩

/-- Node `1` gets `x` decided at nodes `1` and `2` in the first instance, of which node `3` hears
nothing. In the second instance it asks nodes `1` and `3`, which promise and accept, and sends its
decide request to node `3`. -/
def laggingNode : List Event :=
  oneProposer ++ [.run "1" ⟨2, ["1", "2", "3"], "y"⟩,
    .send "1", .handle 6, .reply 6, .skip "1", .send "1", .handle 7, .reply 7,
    .send "1", .handle 8, .reply 8, .send "1", .handle 9, .reply 9, .skip "1", .send "1"]

/-- A decide request reaches a node for an instance beyond its next one, and `VERIFY(0)` fails. -/
theorem lagging_node_aborts : ∃ s c,
    (paxosSystem (.fresh ["1", "2", "3"])).exec Cluster.fresh laggingNode = some s ∧
      (paxosSystem (.fresh ["1", "2", "3"])).Reachable (RunsAgree (.fresh ["1", "2", "3"])) s ∧
      c ∈ s.calls ∧ c.dst = "3" ∧ c.req = .decide ⟨2, "y"⟩ ∧
      (s.node "3").acc.instance_h + 1 < 2 ∧ (s.node "3").acc.decidereq ⟨2, "y"⟩ = none := by
  have hrun : ((paxosSystem (.fresh ["1", "2", "3"])).execGuarded
      (RunsAgree (.fresh ["1", "2", "3"])) Cluster.fresh laggingNode).map
        (fun s => (s.calls[10]?, (s.node "3").acc.instance_h,
          ((s.node "3").acc.decidereq ⟨2, "y"⟩).isNone)) =
      some (some ⟨"1", 10, "3", .decide ⟨2, "y"⟩⟩, 0, true) := by decide
  obtain ⟨s, hexec, hdata⟩ := Option.map_eq_some_iff.mp hrun
  simp only [Prod.mk.injEq] at hdata
  obtain ⟨hcall, hinst, hnone⟩ := hdata
  exact ⟨s, _, System.exec_of_execGuarded hexec, .of_execGuarded hexec (init_fresh _),
    List.mem_of_getElem? hcall, rfl, rfl, by omega, Option.isNone_iff_eq_none.mp hnone⟩

end SimpleDfs.Paxos
